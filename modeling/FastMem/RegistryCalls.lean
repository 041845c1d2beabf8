import FastMem.ShareCounts

/-!
# What the calls of the registry do

Where the counts are right, no call follows a pointer to freed memory, and the counts
are right after it.  Every call is followed to the state it leaves.
-/

namespace FastMem

open RefCount

variable {N κ : Type} {r r' : Registry N κ} {sh i t : Nat} {share share' : FmShare N κ}
  {info : OpenInfo} {pin : Nat → Option Nat}

/-- The counts are right, and no share waits in vain to be freed. -/
structure RegistryOk (r : Registry N κ) (pin : Nat → Option Nat) : Prop extends Counting r pin where
  noLeak : NoLeak r

/-- What the handlers that make other calls rely on: no share but `sh` is written to, no
handle is closed, and none but `o` is opened. -/
structure Touches (r r' : Registry N κ) (sh : Nat) (o : Option Nat) : Prop where
  shares : ∀ x, x ≠ sh → r.shares x ≠ none → r'.shares x = r.shares x
  infos : ∀ j, r'.infos j ≠ none ↔ r.infos j ≠ none ∨ o = some j

/-- The handles are the same. -/
theorem infos_none (heq : r'.infos = r.infos) (j : Nat) :
    r'.infos j ≠ none ↔ r.infos j ≠ none ∨ (none : Option Nat) = some j := by
  simp [heq]

/-- What is opened later is opened. -/
theorem infos_trans {r'' : Registry N κ} {o : Option Nat}
    (h : ∀ j, r'.infos j ≠ none ↔ r.infos j ≠ none ∨ (none : Option Nat) = some j)
    (h' : ∀ j, r''.infos j ≠ none ↔ r'.infos j ≠ none ∨ o = some j) (j : Nat) :
    r''.infos j ≠ none ↔ r.infos j ≠ none ∨ o = some j := by
  rw [h' j, h j]
  simp

/-- Rewriting a share touches no other. -/
theorem Touches.put : Touches r (r.put sh share) sh none :=
  ⟨fun _ hx _ => Function.update_of_ne hx _ _, infos_none rfl⟩

theorem Touches.without : Touches r (r.without sh) sh none :=
  ⟨fun _ hx _ => Function.update_of_ne hx _ _, infos_none rfl⟩

/-- What touches one share twice touches that share only. -/
theorem Touches.trans {r'' : Registry N κ} {o : Option Nat} (h : Touches r r' sh none)
    (h' : Touches r' r'' sh o) : Touches r r'' sh o where
  shares := by
    intro x hx hlive
    have heq := h.shares x hx hlive
    rw [h'.shares x hx (heq ▸ hlive), heq]
  infos := infos_trans h.infos h'.infos

/-- A share that still has a handle, or is not to be deleted, may be rewritten. -/
theorem NoLeak.put (h : NoLeak r)
    (hshare : share.internal = false → share.deleteOnClose = true → share.openCount ≠ 0) :
    NoLeak (r.put sh share) := by
  intro x y hy
  rw [shares_put] at hy
  by_cases hx : x = sh
  · subst hx
    rw [Function.update_self] at hy
    obtain rfl := Option.some.inj hy
    exact hshare
  · rw [Function.update_of_ne hx] at hy
    exact h x y hy

/-- A share that is freed no longer waits for it. -/
theorem NoLeak.without (h : ∀ x y, x ≠ sh → r.shares x = some y → y.internal = false →
    y.deleteOnClose = true → y.openCount ≠ 0) : NoLeak (r.without sh) := by
  intro x y hy
  have hy : Function.update r.shares sh none x = some y := hy
  by_cases hx : x = sh
  · subst hx
    simp at hy
  · rw [Function.update_of_ne hx] at hy
    exact h x y hx hy

/-- What a lookup says about the registered shares. -/
def Found (r : Registry N κ) (name : N) : Option Nat → Prop
  | some sh => ∃ share, r.shares sh = some share ∧ share.name = name ∧ share.internal = false
  | none => ∀ sh share, r.shares sh = some share → share.internal = false → share.name ≠ name

/-- The search along the list finds a share of the name, if there is one. -/
theorem findNamed_spec [DecidableEq N] (name : N) {l : List Nat}
    (hlive : ∀ x ∈ l, r.live x = true) : ∃ found, findNamed r name l = some found ∧
      (∀ sh, found = some sh → sh ∈ l ∧ ∃ share, r.shares sh = some share ∧ share.name = name) ∧
      (found = none → ∀ sh ∈ l, ∀ share, r.shares sh = some share → share.name ≠ name) := by
  induction l with
  | nil => exact ⟨none, rfl, by simp, by simp⟩
  | cons y rest ih =>
      obtain ⟨share, hshare⟩ := Option.isSome_iff_exists.mp (hlive y List.mem_cons_self)
      by_cases hname : name = share.name
      · refine ⟨some y, by simp [findNamed, hshare, hname], ?_, by simp⟩
        intro sh hsh
        obtain rfl := Option.some.inj hsh
        exact ⟨List.mem_cons_self, share, hshare, hname.symm⟩
      · obtain ⟨found, heq, hsome, hnone⟩ := ih fun x hx => hlive x (List.mem_cons_of_mem y hx)
        refine ⟨found, by simp [findNamed, hshare, hname, heq], ?_, ?_⟩
        · intro sh hsh
          obtain ⟨hmem, hex⟩ := hsome sh hsh
          exact ⟨List.mem_cons_of_mem y hmem, hex⟩
        · intro hfound sh hmem share' hshare'
          rcases List.mem_cons.mp hmem with rfl | hmem
          · rw [hshare] at hshare'
            obtain rfl := Option.some.inj hshare'
            exact Ne.symm hname
          · exact hnone hfound sh hmem share' hshare'

/-- `fm_find_named_share` finds a share that is registered under the name, if there is one. -/
theorem fmFindNamedShare_spec [DecidableEq N] (h : Listing r) (name : N) :
    ∃ found, fmFindNamedShare r name = some found ∧ Found r name found := by
  obtain ⟨found, heq, hsome, hnone⟩ := findNamed_spec name h.live
  refine ⟨found, heq, ?_⟩
  cases found with
  | none =>
      intro sh share hshare hint
      refine hnone rfl sh ((h.listed sh).mpr ?_) share hshare
      rw [kind_of_shares hshare, hint]
  | some sh =>
      obtain ⟨hmem, share, hshare, hname⟩ := hsome sh rfl
      have hkind := (h.listed sh).mp hmem
      rw [kind_of_shares hshare] at hkind
      exact ⟨share, hshare, hname, Option.some.inj hkind⟩

/-- A handle on `sh` has been allocated and registered. -/
def Registry.registered (r : Registry N κ) (sh : Nat) (share : FmShare N κ) : Registry N κ :=
  { r with
    shares := Function.update r.shares sh (some share)
    infos := Function.update r.infos r.nextInfo (some ⟨sh, true⟩)
    nextInfo := r.nextInfo + 1 }

/-- `fm_open_from_share` adds a handle and counts it. -/
theorem fmOpenFromShareLocked_eq (hsh : r.shares sh = some share) :
    fmOpenFromShareLocked r sh true = some (some r.nextInfo, (r.put sh share.incr).addInfo sh) := by
  rw [fmOpenFromShareLocked, if_pos rfl, modify_live hsh]
  rfl

/-- Without memory it changes nothing. -/
theorem fmOpenFromShareLocked_noMem (hsh : r.shares sh = some share) :
    fmOpenFromShareLocked r sh false = some (none, r) := by
  simp [fmOpenFromShareLocked, hsh]

/-- What `open_list` and the handle look like once a new handle is registered. -/
theorem openListAdd_addInfo : openListAdd ((r.put sh share.incr).addInfo sh) sh r.nextInfo
    = some (r.registered sh { share.incr with openList := r.nextInfo :: share.openList }) := by
  simp [openListAdd, Registry.modify, Registry.addInfo, Registry.registered, Registry.put,
    Registry.setInfo, FmShare.incr]

/-- `fm_open` of a share that is there. -/
theorem fmOpen_eq [DecidableEq N] {name : N} (hfind : fmFindNamedShare r name = some (some sh))
    (hsh : r.shares sh = some share) : fmOpen r name true
    = some
      (.ok r.nextInfo,
        r.registered sh { share.incr with openList := r.nextInfo :: share.openList }) := by
  simp [fmOpen, hfind, fmOpenFromShareLocked_eq hsh, openListAdd_addInfo]

/-- Without memory `fm_open` changes nothing. -/
theorem fmOpen_noMem [DecidableEq N] {name : N} (hfind : fmFindNamedShare r name = some (some sh))
    (hsh : r.shares sh = some share) : fmOpen r name false = some (.error .noMem, r) := by
  simp [fmOpen, hfind, fmOpenFromShareLocked_noMem hsh]

theorem fmOpen_noEntry [DecidableEq N] {name : N} {alloc : Bool}
    (hfind : fmFindNamedShare r name = some none) :
    fmOpen r name alloc = some (.error .noEntry, r) := by
  simp [fmOpen, hfind]

/-- `fm_open_from_share_and_register` adds a handle that the creation has counted. -/
theorem fmOpenFromShareAndRegister_eq (hsh : r.shares sh = some share) :
    fmOpenFromShareAndRegister r sh true = some
      (some r.nextInfo,
        r.registered sh { share with openList := r.nextInfo :: share.openList }) := by
  have hnew : (r.registered sh { share.incr with openList := r.nextInfo :: share.openList }).shares
    sh
      = some { share.incr with openList := r.nextInfo :: share.openList } := Function.update_self ..
  simp only [fmOpenFromShareAndRegister, fmOpenFromShareLocked_eq hsh, Option.bind_eq_bind,
    Option.bind_some, openListAdd_addInfo, modify_live hnew]
  simp [Registry.registered, Registry.put, FmShare.incr, FmShare.decr]

/-- Without memory it changes nothing. -/
theorem fmOpenFromShareAndRegister_noMem (hsh : r.shares sh = some share) :
    fmOpenFromShareAndRegister r sh false = some (none, r) := by
  simp [fmOpenFromShareAndRegister, fmOpenFromShareLocked_noMem hsh]

/-- `fm_open` counts its handle. -/
theorem Counting.opened (h : Counting r pin) (hsh : r.shares sh = some share) :
    Counting
      (r.registered sh { share.incr with openList := r.nextInfo :: share.openList }) pin := by
  have hnew : ((r.put sh share.incr).addInfo sh).shares sh = some share.incr :=
    Function.update_self ..
  have hinfo : ((r.put sh share.incr).addInfo sh).infos r.nextInfo = some ⟨sh, false⟩ :=
    Function.update_self ..
  have hreg := (h.addHandle hsh).register hnew hinfo
  have heq : (((r.put sh share.incr).addInfo sh).put sh
      { share.incr with openList := r.nextInfo :: share.incr.openList }).setInfo r.nextInfo
      (some ⟨sh, true⟩)
      = r.registered sh { share.incr with openList := r.nextInfo :: share.openList } := by
    simp [Registry.addInfo, Registry.registered, Registry.put, Registry.setInfo, FmShare.incr]
  rwa [heq] at hreg

/-- The pin becomes the reference of the handle. -/
theorem Counting.openedPinned (h : Counting r pin) (hsh : r.shares sh = some share)
    (ht : pin t = some sh) :
    Counting (r.registered sh { share with openList := r.nextInfo :: share.openList })
      (Function.update pin t none) := by
  have hnew : (r.registered sh { share.incr with openList := r.nextInfo :: share.openList }).shares
    sh
      = some { share.incr with openList := r.nextInfo :: share.openList } := Function.update_self ..
  have hdrop := (h.opened hsh).dropPin hnew ht
  have heq : (r.registered sh { share.incr with openList := r.nextInfo :: share.openList }).put sh
      (FmShare.decr { share.incr with openList := r.nextInfo :: share.openList })
      = r.registered sh { share with openList := r.nextInfo :: share.openList } := by
    simp [Registry.registered, Registry.put, FmShare.incr, FmShare.decr]
  rwa [heq] at hdrop

/-- A new handle touches its share only. -/
theorem Touches.registered : Touches r (r.registered sh share) sh (some r.nextInfo) where
  shares := fun _ hx _ => Function.update_of_ne hx _ _
  infos := by
    intro j
    show Function.update r.infos r.nextInfo (some ⟨sh, true⟩) j ≠ none ↔ _
    by_cases hji : j = r.nextInfo
    · subst hji
      simp
    · simp [Function.update_of_ne hji, Ne.symm hji]

/-- Its share is one that may be rewritten. -/
theorem NoLeak.registered (h : NoLeak r)
    (hshare : share.internal = false → share.deleteOnClose = true → share.openCount ≠ 0) :
    NoLeak (r.registered sh share) := h.put hshare

/-- A handle is taken off the list of its share. -/
theorem openListRemove_eq (h : Counting r pin) (hi : r.infos i = some info)
    (hsh : r.shares info.s = some share) : ∃ list, openListRemove r i info = some
      (r.put info.s { share with openList := list }) ∧ list.Nodup ∧
      ∀ j, j ∈ list ↔ j ≠ i ∧ j ∈ share.openList := by
  have hnodup := h.open_nodup _ share hsh
  have hmem := h.open_mem _ share hsh
  cases hlisted : info.openListed with
  | false =>
      refine ⟨share.openList, ?_, hnodup, ?_⟩
      · simp [openListRemove, hlisted, Registry.put, ← hsh]
      · intro j
        have hnot : i ∉ share.openList := by
          rw [hmem, hi, Option.some.injEq]
          intro heq
          rw [heq] at hlisted
          cases hlisted
        constructor
        · intro hj
          refine ⟨?_, hj⟩
          intro heq
          exact hnot (heq ▸ hj)
        · exact fun hj => hj.2
  | true =>
      have hlive : ∀ j ∈ share.openList, (r.infos j).isSome = true := by
        intro j hj
        simp [(hmem j).mp hj]
      refine ⟨share.openList.erase i, ?_, hnodup.erase i, ?_⟩
      · have hunlink : unlinkNode (fun j => (r.infos j).isSome) i share.openList =
            some (share.openList.erase i) :=
          unlinkNode_eq hlive
        simp [openListRemove, hlisted, hsh, hunlink, modify_live hsh]
      · exact fun j => hnodup.mem_erase_iff

/-- Freeing a share does not look at the handles. -/
theorem freeIf_setInfo (p : FmShare N κ → Bool) {o : Option OpenInfo} (hlisting : Listing r)
    (hsh : r.shares sh = some share) :
    (do let r ← freeIf p r sh; some (r.setInfo i o)) = freeIf p (r.setInfo i o) sh := by
  have hsh' : (r.setInfo i o).shares sh = some share := hsh
  have hlisting' : Listing (r.setInfo i o) := hlisting.congr rfl rfl rfl rfl
  by_cases hfree : share.openCount = 0 ∧ p share = true
  · simp [freeIf, hsh, hfree, fmFree_eq hlisting hsh, fmFree_eq hlisting' hsh']
    rfl
  · simp [freeIf, hsh, hfree]

/-- A share is freed, or somebody refers to it, or the caller wants to keep it. -/
theorem freeIf_eq (p : FmShare N κ → Bool) (hlisting : Listing r) (hsh : r.shares sh = some share) :
    freeIf p r sh = some (if share.openCount = 0 ∧ p share = true then r.without sh else r) := by
  by_cases hfree : share.openCount = 0 ∧ p share = true
  · rw [if_pos hfree]
    simp [freeIf, hsh, hfree, fmFree_eq hlisting hsh]
  · rw [if_neg hfree]
    simp [freeIf, hsh, hfree]

/-- The last lines of `fm_close` and `fm_release_share`: `p` holds of a share that is to
be deleted. -/
theorem Counting.freeIf (h : Counting r pin) (hsh : r.shares sh = some share)
    (p : FmShare N κ → Bool) (hp : share.deleteOnClose = true → p share = true)
    (hleak : ∀ x y, x ≠ sh → r.shares x = some y → y.internal = false → y.deleteOnClose = true →
      y.openCount ≠ 0) :
    RegistryOk (if share.openCount = 0 ∧ p share = true then r.without sh else r) pin := by
  by_cases hfree : share.openCount = 0 ∧ p share = true
  · rw [if_pos hfree]
    exact ⟨h.without hsh hfree.1, .without hleak⟩
  · rw [if_neg hfree]
    refine ⟨h, ?_⟩
    intro x y hy hint hdel hzero
    by_cases hx : x = sh
    · subst hx
      rw [hsh] at hy
      obtain rfl := Option.some.inj hy
      exact hfree ⟨hzero, hp hdel⟩
    · exact hleak x y hx hy hint hdel hzero

/-- The other shares of a registry whose share `sh` has been written to. -/
theorem NoLeak.others (h : NoLeak r) (hother : ∀ x, x ≠ sh → r'.shares x = r.shares x) :
    ∀ x y, x ≠ sh → r'.shares x = some y → y.internal = false → y.deleteOnClose = true →
    y.openCount ≠ 0 := by
  intro x y hx hy
  rw [hother x hx] at hy
  exact h x y hy

/-- The registry without a handle, before a share that is left over is freed. -/
def Registry.closed (r : Registry N κ) (i sh : Nat) (share : FmShare N κ)
    (list : List Nat) : Registry N κ :=
  (r.put sh { share with openList := list, openCount := share.openCount - 1 }).setInfo i none

/-- What `fm_close` does to its share. -/
theorem fmClose_eq (h : Counting r pin) (hi : r.infos i = some info)
    (hsh : r.shares info.s = some share) :
    ∃ list, list.Nodup ∧ (∀ j, j ∈ list ↔ j ≠ i ∧ j ∈ share.openList) ∧
      fmClose r i = some (if share.openCount - 1 = 0 ∧ share.deleteOnClose = true
        then (r.closed i info.s share list).without info.s else r.closed i info.s share list) := by
  obtain ⟨list, hremove, hnodup, hlist⟩ := openListRemove_eq h hi hsh
  refine ⟨list, hnodup, hlist, ?_⟩
  have hsh₁ : (r.put info.s { share with openList := list }).shares info.s
      = some { share with openList := list } := Function.update_self ..
  have hput : (r.put info.s { share with openList := list }).put info.s
    (FmShare.decr { share with openList := list })
      = r.put info.s { share with openList := list, openCount := share.openCount - 1 } := by
    simp [Registry.put, FmShare.decr]
  have hsh₂ :
      (r.put info.s { share with openList := list, openCount := share.openCount - 1 }).shares info.s
      = some { share with openList := list, openCount := share.openCount - 1 } :=
        Function.update_self ..
  have hlisting : Listing
      (r.put info.s { share with openList := list, openCount := share.openCount - 1 }) :=
    h.toListing.put hsh rfl
  have hfree := freeIf_setInfo (i := i) (o := none) FmShare.deleteOnClose hlisting hsh₂
  simp only [fmClose, hi, Option.bind_eq_bind, Option.bind_some, hremove, modify_live hsh₁, hput]
    at hfree ⊢
  rw [hfree]
  have hlisting' : Listing (r.closed i info.s share list) := hlisting.congr rfl rfl rfl rfl
  exact freeIf_eq FmShare.deleteOnClose hlisting' hsh₂

/-- `fm_close`. -/
theorem fmClose_spec (h : RegistryOk r pin) (hi : r.infos i = some info) :
    ∃ r', fmClose r i = some r' ∧ RegistryOk r' pin ∧ (∀ x, x ≠ info.s → r'.shares x = r.shares x) ∧
      ∀ j, r'.infos j ≠ none ↔ j ≠ i ∧ r.infos j ≠ none := by
  have hhandle : r.handles i = some info.s := by simp [Registry.handles, hi]
  obtain ⟨share, hsh⟩ := shares_of_live (h.handle_live i _ hhandle)
  obtain ⟨list, hnodup, hlist, heq⟩ := fmClose_eq h.toCounting hi hsh
  have hclosed : Counting (r.closed i info.s share list) pin :=
    h.toCounting.dropHandle hsh hi rfl hnodup hlist
  have hother : ∀ x, x ≠ info.s → (r.closed i info.s share list).shares x = r.shares x :=
    fun x hx => Function.update_of_ne hx _ _
  have hinfos : ∀ j, (r.closed i info.s share list).infos j ≠ none ↔ j ≠ i ∧ r.infos j ≠ none := by
    intro j
    rw [Registry.closed, infos_setInfo]
    by_cases hj : j = i
    · simp [hj]
    · simp [hj]
  have hnew : (r.closed i info.s share list).shares info.s
      = some { share with openList := list, openCount := share.openCount - 1 } :=
        Function.update_self ..
  refine ⟨_, heq, hclosed.freeIf hnew FmShare.deleteOnClose id (h.noLeak.others hother), ?_, ?_⟩
  · intro x hx
    split
    · exact (Function.update_of_ne hx _ _).trans (hother x hx)
    · exact hother x hx
  · split
    · exact hinfos
    · exact hinfos

/-- What `fm_release_share` does to its share. -/
theorem fmReleaseShare_eq (h : Counting r pin) (hsh : r.shares sh = some share) :
    fmReleaseShare r sh false = some
      (if share.openCount - 1 = 0 then (r.put sh share.decr).without sh
      else r.put sh share.decr) := by
  have hnew : (r.put sh share.decr).shares sh = some share.decr := Function.update_self ..
  have hlisting : Listing (r.put sh share.decr) := h.toListing.put hsh rfl
  have hfree := freeIf_eq (fun _ => true) hlisting hnew
  simp only [and_true] at hfree
  simp [fmReleaseShare, modify_live hsh, hfree]
  rfl

/-- `fm_release_share` of a pinned share. -/
theorem fmReleaseShare_spec (h : RegistryOk r pin) (ht : pin t = some sh) :
    ∃ r', fmReleaseShare r sh false = some r' ∧ RegistryOk r' (Function.update pin t none) ∧
    Touches r r' sh none := by
  obtain ⟨share, hsh⟩ := shares_of_live (h.pin_live t sh ht)
  have hdrop := h.toCounting.dropPin hsh ht
  have hnew : (r.put sh share.decr).shares sh = some share.decr := Function.update_self ..
  have hother : ∀ x, x ≠ sh → (r.put sh share.decr).shares x = r.shares x :=
    fun x hx => Function.update_of_ne hx _ _
  have hok := hdrop.freeIf hnew (fun _ => true) (fun _ => rfl) (h.noLeak.others hother)
  simp only [and_true] at hok
  refine ⟨_, fmReleaseShare_eq h.toCounting hsh, hok, ?_⟩
  split
  · exact Touches.put.trans .without
  · exact .put

/-- An internal share that nobody has opened. -/
def Private (r : Registry N κ) (sh : Nat) : Prop :=
  ∃ share, r.shares sh = some share ∧ share.internal = true ∧ share.openCount = 0

/-- What another handler relies on: its own share, and its handle.  The handle `o` is new. -/
structure KeepsOthers (r r' : Registry N κ) (o : Option Nat) : Prop where
  privates : ∀ x, Private r x → Private r' x
  infos : ∀ j, r'.infos j ≠ none ↔ r.infos j ≠ none ∨ o = some j

/-- Nothing is done to the others. -/
theorem KeepsOthers.refl (r : Registry N κ) : KeepsOthers r r none :=
  ⟨fun _ hx => hx, infos_none rfl⟩

/-- What keeps the others twice keeps them. -/
theorem KeepsOthers.trans {r'' : Registry N κ} {o : Option Nat} (h : KeepsOthers r r' none)
    (h' : KeepsOthers r' r'' o) : KeepsOthers r r'' o :=
  ⟨fun x hx => h'.privates x (h.privates x hx), infos_trans h.infos h'.infos⟩

/-- A share nobody has changed is as private as before. -/
theorem Private.of_eq {x : Nat} (h : Private r x) (heq : r'.shares x = r.shares x) :
    Private r' x := by
  obtain ⟨share, hshare, hrest⟩ := h
  exact ⟨share, heq.trans hshare, hrest⟩

/-- A private share is there. -/
theorem Private.live {x : Nat} (h : Private r x) : r.shares x ≠ none := by
  obtain ⟨share, hshare, -⟩ := h
  simp [hshare]

/-- What touches a share that is not private keeps the private ones. -/
theorem Touches.keeps {o : Option Nat} (h : Touches r r' sh o) (hsh : ¬ Private r sh) :
    KeepsOthers r r' o where
  privates := by
    intro x hx
    have hne : x ≠ sh := fun heq => hsh (heq ▸ hx)
    exact hx.of_eq (h.shares x hne hx.live)
  infos := h.infos

/-- A registered share is not private. -/
theorem not_private_of_listed (hsh : r.shares sh = some share) (hint : share.internal = false) :
    ¬ Private r sh := by
  intro hpriv
  obtain ⟨share', hshare', htrue, -⟩ := hpriv
  rw [hsh] at hshare'
  obtain rfl := Option.some.inj hshare'
  rw [hint] at htrue
  cases htrue

theorem not_private_of_count (hsh : r.shares sh = some share) (hcount : share.openCount ≠ 0) :
    ¬ Private r sh := by
  intro hpriv
  obtain ⟨share', hshare', -, hzero⟩ := hpriv
  rw [hsh] at hshare'
  obtain rfl := Option.some.inj hshare'
  exact hcount hzero

/-- A new share keeps the others. -/
theorem KeepsOthers.addShare {name : N} {internalTable : Bool} {core : κ} (h : Listing r) :
    KeepsOthers r (addShare r name internalTable core) none where
  privates := by
    intro x hx
    apply hx.of_eq
    rw [shares_addShare, Function.update_of_ne]
    intro heq
    exact hx.live (heq ▸ h.shares_next)
  infos := infos_none infos_addShare

section Calls

variable [DecidableEq N]

/-- `fm_open`: a new handle, or nothing. -/
theorem fmOpen_spec (h : RegistryOk r pin) (name : N) (alloc : Bool) :
    ∃ res r', fmOpen r name alloc = some (res, r') ∧ RegistryOk r' pin ∧
    KeepsOthers r r' res.toOption ∧
      ∀ i, res = .ok i → r.infos i = none := by
  obtain ⟨found, hfind, hfound⟩ := fmFindNamedShare_spec h.toListing name
  cases found with
  | none => exact ⟨_, r, fmOpen_noEntry hfind, h, .refl r, by simp⟩
  | some sh =>
      obtain ⟨share, hsh, -, hint⟩ := hfound
      cases alloc with
      | false => exact ⟨_, r, fmOpen_noMem hfind hsh, h, .refl r, by simp⟩
      | true =>
          have hleak : NoLeak
              (r.registered sh { share.incr with openList := r.nextInfo :: share.openList }) :=
            h.noLeak.registered fun _ _ => Nat.succ_ne_zero _
          refine ⟨_, _, fmOpen_eq hfind hsh, ⟨h.toCounting.opened hsh, hleak⟩,
            Touches.registered.keeps (not_private_of_listed hsh hint), ?_⟩
          intro i hi
          obtain rfl : r.nextInfo = i := Except.ok.inj hi
          exact h.toCounting.infos_next

omit [DecidableEq N] in
/-- `fm_open_from_share_and_register` of a pinned share. -/
theorem fmOpenFromShareAndRegister_spec (h : RegistryOk r pin) (ht : pin t = some sh) :
    ∃ r', fmOpenFromShareAndRegister r sh true = some (some r.nextInfo, r') ∧
      RegistryOk r' (Function.update pin t none) ∧ KeepsOthers r r'
        (some r.nextInfo) ∧ r.infos r.nextInfo = none := by
  obtain ⟨share, hsh⟩ := shares_of_live (h.pin_live t sh ht)
  have hcount := h.count sh share hsh
  have hpos := count_pos h.pins_finite ht
  have hne : share.openCount ≠ 0 := by omega
  have hleak : NoLeak (r.registered sh { share with openList := r.nextInfo :: share.openList }) :=
    h.noLeak.registered fun _ _ => hne
  exact ⟨_, fmOpenFromShareAndRegister_eq hsh, ⟨h.toCounting.openedPinned hsh ht, hleak⟩,
    Touches.registered.keeps (not_private_of_count hsh hne), h.toCounting.infos_next⟩

/-- The lookup of `fm_create`: a share that is found is referred to. -/
theorem discardUnreferenced_spec (h : RegistryOk r pin) (name : N) :
    ∃ found r', discardUnreferenced r name = some (found, r') ∧ RegistryOk r' pin ∧
    KeepsOthers r r' none ∧
      ∀ sh, found = some sh → ∃ share, r'.shares sh = some share ∧ share.internal = false := by
  obtain ⟨found, hfind, hfound⟩ := fmFindNamedShare_spec h.toListing name
  cases found with
  | none => exact ⟨none, r, by simp [discardUnreferenced, hfind], h, .refl r, by simp⟩
  | some sh =>
      obtain ⟨share, hsh, -, hint⟩ := hfound
      by_cases hzero : share.openCount = 0
      · refine ⟨none, r.without sh, ?_,
          ⟨h.toCounting.without hsh hzero, .without (h.noLeak.others fun _ _ => rfl)⟩,
          Touches.without.keeps (not_private_of_listed hsh hint), by simp⟩
        simp [discardUnreferenced, hfind, hsh, hzero, fmFree_eq h.toListing hsh]
      · refine ⟨some sh, r, by simp [discardUnreferenced, hfind, hsh, hzero], h, .refl r, ?_⟩
        intro x hx
        obtain rfl := Option.some.inj hx
        exact ⟨share, hsh, hint⟩

omit [DecidableEq N] in
/-- A registry with a new share is in order. -/
theorem RegistryOk.addShare {name : N} {internalTable : Bool} {core : κ} (h : RegistryOk r pin) :
    RegistryOk (addShare r name internalTable core) pin := by
  refine ⟨h.toCounting.addShare, ?_⟩
  intro x y hy
  rw [shares_addShare] at hy
  by_cases hx : x = r.nextShare
  · subst hx
    rw [Function.update_self] at hy
    obtain rfl := Option.some.inj hy
    intro hint hdel
    exact absurd (hint.symm.trans hdel) Bool.false_ne_true
  · rw [Function.update_of_ne hx] at hy
    exact h.noLeak x y hy

omit [DecidableEq N] in
/-- `fm_create` pins the share that it returns. -/
theorem pinned_spec (h : RegistryOk r pin) (hsh : r.shares sh = some share)
    (hint : share.internal = false) (ht : pin t = none) : ∃ r', pinned r sh false true = some r' ∧
      RegistryOk r' (Function.update pin t (some sh)) ∧ KeepsOthers r r' none := by
  refine ⟨_, modify_live hsh _,
    ⟨h.toCounting.takePin hsh ht, h.noLeak.put fun _ _ => Nat.succ_ne_zero _⟩, ?_⟩
  exact Touches.put.keeps (not_private_of_listed hsh hint)

/-- `fm_create` for `open`, when the table is not internal. -/
theorem fmCreate_spec (h : RegistryOk r pin) (name : N) (fresh : Option κ) (ht : pin t = none) :
    ∃ res r', fmCreate r name false true fresh = some (res, r') ∧
      RegistryOk r' (Function.update pin t (res.map Prod.fst)) ∧ KeepsOthers r r' none := by
  obtain ⟨found, r₁, hdiscard, hok, hkeeps, hfound⟩ := discardUnreferenced_spec h name
  cases found with
  | some sh =>
      obtain ⟨share, hsh, hint⟩ := hfound sh rfl
      obtain ⟨r₂, hpin, hok', hkeeps'⟩ := pinned_spec hok hsh hint ht
      exact ⟨some (sh, false), r₂, by simp [fmCreate, hdiscard, hpin], hok', hkeeps.trans hkeeps'⟩
  | none =>
      cases fresh with
      | none =>
          refine ⟨none, r₁, by simp [fmCreate, hdiscard], ?_, hkeeps⟩
          rwa [Option.map_none, ← ht, Function.update_eq_self]
      | some core =>
          have hsh : (addShare r₁ name false core).shares r₁.nextShare = some ⟨name, core, 0,
              false, false, []⟩ := by
            rw [shares_addShare, Function.update_self]
          obtain ⟨r₂, hpin, hok', hkeeps'⟩ := pinned_spec hok.addShare hsh rfl ht
          exact ⟨some (r₁.nextShare, true), r₂, by simp [fmCreate, hdiscard, hpin], hok',
            (hkeeps.trans (.addShare hok.toListing)).trans hkeeps'⟩

/-- `fm_create` for `CREATE TABLE`. -/
theorem fmCreate_unpinned (h : RegistryOk r pin) (name : N) (fresh : Option κ) :
    ∃ res r', fmCreate r name false false fresh = some (res, r') ∧ RegistryOk r' pin ∧
    KeepsOthers r r' none := by
  obtain ⟨found, r₁, hdiscard, hok, hkeeps, -⟩ := discardUnreferenced_spec h name
  cases found with
  | some sh => exact ⟨_, r₁, by simp [fmCreate, hdiscard, pinned]; rfl, hok, hkeeps⟩
  | none =>
      cases fresh with
      | none => exact ⟨none, r₁, by simp [fmCreate, hdiscard], hok, hkeeps⟩
      | some core =>
          exact ⟨_, addShare r₁ name false core, by simp [fmCreate, hdiscard, pinned]; rfl,
            hok.addShare, hkeeps.trans (.addShare hok.toListing)⟩

/-- `fm_create` of an internal table: a share that only the caller knows. -/
theorem fmCreate_internal (h : RegistryOk r pin) (name : N) (pinShare : Bool) (fresh : Option κ) :
    ∃ res r', fmCreate r name true pinShare fresh = some (res, r') ∧ RegistryOk r' pin ∧
    KeepsOthers r r' none ∧
      ∀ sh b, res = some (sh, b) → Private r' sh ∧ r.shares sh = none := by
  cases fresh with
  | none => exact ⟨none, r, by simp [fmCreate], h, .refl r, by simp⟩
  | some core =>
      refine ⟨some (r.nextShare, true), addShare r name true core, by simp [fmCreate, pinned],
        h.addShare, .addShare h.toListing, ?_⟩
      intro sh b hsh
      obtain ⟨rfl, -⟩ := Prod.mk.inj (Option.some.inj hsh)
      refine ⟨⟨⟨name, core, 0, true, true, []⟩, ?_, rfl, rfl⟩, h.toListing.shares_next⟩
      rw [shares_addShare, Function.update_self]

/-- `fm_delete_table`. -/
theorem fmDeleteTable_spec (h : RegistryOk r pin) (name : N) :
    ∃ res r', fmDeleteTable r name = some (res, r') ∧ RegistryOk r' pin ∧
    KeepsOthers r r' none := by
  obtain ⟨found, hfind, hfound⟩ := fmFindNamedShare_spec h.toListing name
  cases found with
  | none => exact ⟨false, r, by simp [fmDeleteTable, hfind], h, .refl r⟩
  | some sh =>
      obtain ⟨share, hsh, -, hint⟩ := hfound
      have hpriv := not_private_of_listed hsh hint
      by_cases hzero : share.openCount = 0
      · refine ⟨true, r.without sh, ?_,
          ⟨h.toCounting.without hsh hzero, .without (h.noLeak.others fun _ _ => rfl)⟩,
          Touches.without.keeps hpriv⟩
        simp [fmDeleteTable, hfind, fmTryFree, hsh, hzero, fmFree_eq h.toListing hsh]
      · refine ⟨true, r.put sh { share with deleteOnClose := true }, ?_,
          ⟨h.toCounting.relabel hsh rfl rfl rfl, h.noLeak.put fun _ _ => hzero⟩,
          Touches.put.keeps hpriv⟩
        simp [fmDeleteTable, hfind, fmTryFree, hsh, hzero, modify_live hsh]

/-- `fm_rename`. -/
theorem fmRename_spec (h : RegistryOk r pin) (oldName newName : N) (dup : Bool) :
    ∃ res r', fmRename r oldName newName dup = some (res, r') ∧ RegistryOk r' pin ∧
    KeepsOthers r r' none := by
  obtain ⟨found, hfind, hfound⟩ := fmFindNamedShare_spec h.toListing oldName
  cases found with
  | none => exact ⟨true, r, by simp [fmRename, hfind], h, .refl r⟩
  | some sh =>
      obtain ⟨share, hsh, -, hint⟩ := hfound
      cases dup with
      | false => exact ⟨false, r, by simp [fmRename, hfind], h, .refl r⟩
      | true =>
          refine ⟨true,
            r.put sh { share with name := newName }, by simp [fmRename, hfind, modify_live hsh],
            ⟨h.toCounting.relabel hsh rfl rfl rfl, h.noLeak.put (h.noLeak sh share hsh)⟩, ?_⟩
          exact Touches.put.keeps (not_private_of_listed hsh hint)

end Calls

end FastMem
