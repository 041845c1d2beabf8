import FastMem.Registry

/-!
# Reference counts of shares

What holds of the registry in every state that calls of handlers lead to: `open_count`
counts the handles and the pins, `open_list` holds the registered handles, the share list
the registered shares, and what is freed has no reference left and is not used again.
-/

namespace FastMem

open RefCount

variable {N κ : Type} {r r' : Registry N κ} {sh i t : Nat} {share share' : FmShare N κ}
  {info : OpenInfo} {pin : Nat → Option Nat}

/-- Whether a share is internal, if it is allocated. -/
def Registry.kind (r : Registry N κ) (sh : Nat) : Option Bool := (r.shares sh).map FmShare.internal

/-- The share that a handle refers to, if the handle is open. -/
def Registry.handles (r : Registry N κ) (i : Nat) : Option Nat := (r.infos i).map OpenInfo.s

/-- The share list holds every share that is not internal once, and every share that was
allocated is either still there or has been freed once. -/
structure Listing (r : Registry N κ) : Prop where
  list_nodup : r.fmShareList.Nodup
  listed : ∀ sh, sh ∈ r.fmShareList ↔ r.kind sh = some false
  freed_nodup : r.freed.Nodup
  freed_iff : ∀ sh, sh ∈ r.freed ↔ sh < r.nextShare ∧ r.kind sh = none
  share_below : ∀ sh, r.kind sh ≠ none → sh < r.nextShare

/-- The references to shares and what is kept about them. `pin` says which share a
handler object has pinned. -/
structure Counting (r : Registry N κ) (pin : Nat → Option Nat) : Prop extends Listing r where
  info_below : ∀ i, r.infos i ≠ none → i < r.nextInfo
  handle_live : ∀ i sh, r.handles i = some sh → r.kind sh ≠ none
  pin_live : ∀ t sh, pin t = some sh → r.kind sh ≠ none
  handles_finite : Finitely r.handles
  pins_finite : Finitely pin
  count : ∀ sh share, r.shares sh = some share → share.openCount = count r.handles sh + count pin sh
  open_nodup : ∀ sh share, r.shares sh = some share → share.openList.Nodup
  open_mem : ∀ sh share, r.shares sh = some share → ∀ i, i ∈ share.openList ↔
    r.infos i = some ⟨sh, true⟩

/-- A share that is to be deleted is still referred to. -/
def NoLeak (r : Registry N κ) : Prop :=
  ∀ sh share, r.shares sh = some share → share.internal = false → share.deleteOnClose = true →
    share.openCount ≠ 0

/-- Only the share that is put changes. -/
@[simp] theorem shares_put : (r.put sh share).shares = Function.update r.shares sh
    (some share) := rfl
/-- Putting a share touches no handle. -/
@[simp] theorem infos_put : (r.put sh share).infos = r.infos := rfl
/-- Putting a share changes no handle's share. -/
@[simp] theorem handles_put : (r.put sh share).handles = r.handles := rfl
/-- Setting a handle touches no share. -/
@[simp] theorem shares_setInfo {o : Option OpenInfo} : (r.setInfo i o).shares = r.shares := rfl
@[simp] theorem kind_setInfo {o : Option OpenInfo} : (r.setInfo i o).kind = r.kind := rfl
/-- Only the handle that is set changes. -/
@[simp] theorem infos_setInfo {o : Option OpenInfo} :
    (r.setInfo i o).infos = Function.update r.infos i o := rfl

/-- Its share is the one it was set to. -/
@[simp] theorem handles_setInfo {o : Option OpenInfo} :
    (r.setInfo i o).handles = Function.update r.handles i (o.map OpenInfo.s) := by
  funext j
  by_cases hj : j = i
  · subst hj
    simp [Registry.handles]
  · simp [Registry.handles, hj]

/-- A share that is there has a kind. -/
theorem kind_of_shares (h : r.shares sh = some share) : r.kind sh = some share.internal := by
  simp [Registry.kind, h]

/-- What has a kind is a share. -/
theorem shares_of_kind {b : Bool} (h : r.kind sh = some b) :
    ∃ share, r.shares sh = some share ∧ share.internal = b := by
  obtain ⟨share, hshare, rfl⟩ := Option.map_eq_some_iff.mp h
  exact ⟨share, hshare, rfl⟩

theorem shares_of_live (h : r.kind sh ≠ none) : ∃ share, r.shares sh = some share := by
  obtain ⟨b, hb⟩ := Option.ne_none_iff_exists'.mp h
  obtain ⟨share, hshare, -⟩ := shares_of_kind hb
  exact ⟨share, hshare⟩

/-- A change to a share that is there succeeds. -/
theorem modify_live (h : r.shares sh = some share) (f : FmShare N κ → FmShare N κ) :
    r.modify sh f = some (r.put sh (f share)) := by
  simp [Registry.modify, h]

/-- Writing to a share keeps which shares there are. -/
theorem kind_put (h : r.shares sh = some share) (hint : share'.internal = share.internal) :
    (r.put sh share').kind = r.kind := by
  funext x
  by_cases hx : x = sh
  · subst hx
    simp [Registry.kind, h, hint]
  · simp [Registry.kind, hx]

/-- The list is in order if it and the kinds of the shares are the same. -/
theorem Listing.congr (h : Listing r) (hkind : r'.kind = r.kind)
    (hlist : r'.fmShareList = r.fmShareList) (hfreed : r'.freed = r.freed)
    (hnext : r'.nextShare = r.nextShare) : Listing r' where
  list_nodup := hlist ▸ h.list_nodup
  listed := by
    rw [hlist, hkind]
    exact h.listed
  freed_nodup := hfreed ▸ h.freed_nodup
  freed_iff := by
    rw [hfreed, hkind, hnext]
    exact h.freed_iff
  share_below := by
    rw [hkind, hnext]
    exact h.share_below

/-- A share may be rewritten as long as its kind stays. -/
theorem Listing.put (h : Listing r) (hsh : r.shares sh = some share)
    (hint : share'.internal = share.internal) :
    Listing (r.put sh share') := h.congr (kind_put hsh hint) rfl rfl rfl

/-- `r'` differs from `r` in one share, and in handles and pins of that share. -/
structure Rewrites (r r' : Registry N κ) (pin pin' : Nat → Option Nat) (sh : Nat)
    (share share' : FmShare N κ) : Prop where
  before : r.shares sh = some share
  after : r'.shares = Function.update r.shares sh (some share')
  internal : share'.internal = share.internal
  list : r'.fmShareList = r.fmShareList
  freed : r'.freed = r.freed
  nextShare : r'.nextShare = r.nextShare
  infos : ∀ x, x ≠ sh → ∀ i, r'.infos i = some ⟨x, true⟩ ↔ r.infos i = some ⟨x, true⟩
  handles : ∀ x, x ≠ sh → ∀ i, r'.handles i = some x ↔ r.handles i = some x
  pins : ∀ x, x ≠ sh → ∀ t, pin' t = some x ↔ pin t = some x

/-- A rewritten share keeps its kind. -/
theorem Rewrites.kind {pin' : Nat → Option Nat} (h : Rewrites r r' pin pin' sh share share') :
    r'.kind = r.kind := by
  rw [← kind_put h.before h.internal]
  funext x
  rw [Registry.kind, Registry.kind, h.after]
  rfl

/-- Nothing is to be shown of the other shares. -/
theorem Counting.rewrites {pin' : Nat → Option Nat} (h : Counting r pin)
    (hw : Rewrites r r' pin pin' sh share share')
    (hbelow : ∀ i, r'.infos i ≠ none → i < r'.nextInfo) (hhandles : Finitely r'.handles)
    (hpins : Finitely pin')
    (hcount : share'.openCount = RefCount.count r'.handles sh + RefCount.count pin' sh)
    (hnodup : share'.openList.Nodup)
    (hmem : ∀ i, i ∈ share'.openList ↔ r'.infos i = some ⟨sh, true⟩) : Counting r' pin' := by
  have hkind := hw.kind
  have hlive : r'.kind sh ≠ none := by
    rw [hkind, kind_of_shares hw.before]
    simp
  have hother : ∀ x y, r'.shares x = some y → x = sh ∧ y = share' ∨ x ≠ sh ∧
      r.shares x = some y := by
    intro x y hy
    rw [hw.after] at hy
    by_cases hx : x = sh
    · subst hx
      rw [Function.update_self] at hy
      exact Or.inl ⟨rfl, (Option.some.inj hy).symm⟩
    · rw [Function.update_of_ne hx] at hy
      exact Or.inr ⟨hx, hy⟩
  have hlisting := h.toListing.congr hkind hw.list hw.freed hw.nextShare
  refine ⟨hlisting, hbelow, ?_, ?_, hhandles, hpins, ?_, ?_, ?_⟩
  · intro j x hj
    by_cases hx : x = sh
    · exact hx ▸ hlive
    · rw [hkind]
      exact h.handle_live j x ((hw.handles x hx j).mp hj)
  · intro j x hj
    by_cases hx : x = sh
    · exact hx ▸ hlive
    · rw [hkind]
      exact h.pin_live j x ((hw.pins x hx j).mp hj)
  · intro x y hy
    rcases hother x y hy with ⟨rfl, rfl⟩ | ⟨hx, hy⟩
    · exact hcount
    · have hh : holders r'.handles x = holders r.handles x := Set.ext (hw.handles x hx)
      have hp : holders pin' x = holders pin x := Set.ext (hw.pins x hx)
      rw [RefCount.count, RefCount.count, hh, hp]
      exact h.count x y hy
  · intro x y hy
    rcases hother x y hy with ⟨rfl, rfl⟩ | ⟨-, hy⟩
    · exact hnodup
    · exact h.open_nodup x y hy
  · intro x y hy j
    rcases hother x y hy with ⟨rfl, rfl⟩ | ⟨hx, hy⟩
    · exact hmem j
    · rw [hw.infos x hx j]
      exact h.open_mem x y hy j

/-- A write that changes neither the count nor the list of handles. -/
theorem Counting.relabel (h : Counting r pin) (hsh : r.shares sh = some share)
    (hint : share'.internal = share.internal) (hcount : share'.openCount = share.openCount)
    (hlist : share'.openList = share.openList) : Counting (r.put sh share') pin := by
  have hw : Rewrites r (r.put sh share') pin pin sh share share' :=
    ⟨hsh, rfl, hint, rfl, rfl, rfl, fun _ _ _ => Iff.rfl, fun _ _ _ =>
      Iff.rfl, fun _ _ _ => Iff.rfl⟩
  apply h.rewrites hw h.info_below h.handles_finite h.pins_finite
  · rw [hcount]
    exact h.count sh share hsh
  · rw [hlist]
    exact h.open_nodup sh share hsh
  · rw [hlist]
    exact h.open_mem sh share hsh

/-- A reference of somebody else does not depend on what `t` holds. -/
theorem update_ref_iff {ref : Nat → Option Nat} {o : Option Nat} {x : Nat} (ho : o ≠ some x)
    (ht : ref t ≠ some x) (j : Nat) : Function.update ref t o j = some x ↔ ref j = some x := by
  by_cases hj : j = t
  · subst hj
    simp [ho, ht]
  · rw [Function.update_of_ne hj]

/-- A handler pins a share. -/
theorem Counting.takePin (h : Counting r pin) (hsh : r.shares sh = some share) (ht : pin t = none) :
    Counting (r.put sh share.incr) (Function.update pin t (some sh)) := by
  have hw : Rewrites r (r.put sh share.incr) pin (Function.update pin t (some sh)) sh
      share share.incr := by
    refine ⟨hsh, rfl, rfl, rfl, rfl, rfl, fun _ _ _ => Iff.rfl, fun _ _ _ =>
      Iff.rfl, fun x hx => ?_⟩
    apply update_ref_iff
    · intro heq
      exact hx (Option.some.inj heq).symm
    · simp [ht]
  apply h.rewrites hw h.info_below h.handles_finite (h.pins_finite.update t _)
  · rw [count_take_self h.pins_finite ht, ← Nat.add_assoc]
    exact congrArg (· + 1) (h.count sh share hsh)
  · exact h.open_nodup sh share hsh
  · exact h.open_mem sh share hsh

/-- A handler gives up its pin. -/
theorem Counting.dropPin (h : Counting r pin) (hsh : r.shares sh = some share)
    (ht : pin t = some sh) : Counting (r.put sh share.decr) (Function.update pin t none) := by
  have hw : Rewrites r (r.put sh share.decr) pin (Function.update pin t none) sh
      share share.decr := by
    refine ⟨hsh, rfl, rfl, rfl, rfl, rfl, fun _ _ _ => Iff.rfl, fun _ _ _ =>
      Iff.rfl, fun x hx => ?_⟩
    apply update_ref_iff
    · simp
    · rw [ht]
      intro heq
      exact hx (Option.some.inj heq).symm
  apply h.rewrites hw h.info_below h.handles_finite (h.pins_finite.update t _)
  · have hcount := h.count sh share hsh
    have hdrop := count_drop_self h.pins_finite ht
    show share.openCount - 1 = _
    rw [handles_put]
    omega
  · exact h.open_nodup sh share hsh
  · exact h.open_mem sh share hsh

/-- The next handle is not in use. -/
theorem Counting.infos_next (h : Counting r pin) : r.infos r.nextInfo = none := by
  by_contra hne
  exact absurd (h.info_below _ hne) (Nat.lt_irrefl _)

/-- A handle is allocated, and not registered yet. -/
theorem Counting.addHandle (h : Counting r pin) (hsh : r.shares sh = some share) :
    Counting ((r.put sh share.incr).addInfo sh) pin := by
  have hnone := h.infos_next
  have hfree : r.handles r.nextInfo = none := by simp [Registry.handles, hnone]
  have hhandles : ((r.put sh share.incr).addInfo sh).handles
      = Function.update r.handles r.nextInfo (some sh) := handles_setInfo (r := r.put sh share.incr)
  have hinfos : ∀ x j, Function.update r.infos r.nextInfo (some ⟨sh, false⟩) j = some ⟨x, true⟩ ↔
      r.infos j = some ⟨x, true⟩ := by
    intro x j
    by_cases hj : j = r.nextInfo
    · subst hj
      simp [hnone]
    · rw [Function.update_of_ne hj]
  refine h.rewrites ⟨hsh, rfl, rfl, rfl, rfl, rfl, fun x _ => hinfos x, fun x hx =>
    ?_, fun _ _ _ => Iff.rfl⟩ ?_ ?_ h.pins_finite ?_ (h.open_nodup sh share hsh) ?_
  · rw [hhandles]
    apply update_ref_iff
    · intro heq
      exact hx (Option.some.inj heq).symm
    · simp [hfree]
  · intro j hj
    show j < r.nextInfo + 1
    by_cases hjn : j = r.nextInfo
    · omega
    · have hj : Function.update r.infos r.nextInfo (some ⟨sh, false⟩) j ≠ none := hj
      rw [Function.update_of_ne hjn] at hj
      exact Nat.lt_succ_of_lt (h.info_below j hj)
  · rw [hhandles]
    exact h.handles_finite.update _ _
  · rw [hhandles, count_take_self h.handles_finite hfree]
    have hcount := h.count sh share hsh
    show share.openCount + 1 = _
    omega
  · intro j
    exact (h.open_mem sh share hsh j).trans (hinfos sh j).symm

/-- A new handle goes to the head of `open_list`. -/
theorem Counting.register (h : Counting r pin) (hsh : r.shares sh = some share)
    (hi : r.infos i = some ⟨sh, false⟩) :
    Counting
      ((r.put sh { share with openList := i :: share.openList }).setInfo i (some ⟨sh, true⟩))
      pin := by
  have hhandles : ((r.put sh { share with openList := i :: share.openList }).setInfo i
    (some ⟨sh, true⟩)).handles
      = r.handles := by
    rw [handles_setInfo, handles_put, Function.update_eq_self_iff]
    simp [Registry.handles, hi]
  refine h.rewrites ⟨hsh, rfl, rfl, rfl, rfl,
    rfl, fun x hx j => ?_, fun x _ j => ?_, fun _ _ _ => Iff.rfl⟩ ?_ ?_ h.pins_finite ?_ ?_ ?_
  · by_cases hj : j = i
    · subst hj
      simp [hi, Ne.symm hx]
    · simp [hj]
  · rw [hhandles]
  · intro j hj
    by_cases hji : j = i
    · subst hji
      exact h.info_below j (by simp [hi])
    · rw [infos_setInfo, Function.update_of_ne hji] at hj
      exact h.info_below j hj
  · rw [hhandles]
    exact h.handles_finite
  · rw [hhandles]
    exact h.count sh share hsh
  · apply List.Nodup.cons _ (h.open_nodup sh share hsh)
    rw [h.open_mem sh share hsh, hi]
    simp
  · intro j
    by_cases hj : j = i
    · subst hj
      simp
    · simp [hj, h.open_mem sh share hsh j]

/-- A handle is closed. -/
theorem Counting.dropHandle (h : Counting r pin) (hsh : r.shares sh = some share)
    (hi : r.infos i = some info) (hs : info.s = sh) {list : List Nat} (hnodup : list.Nodup)
    (hlist : ∀ j, j ∈ list ↔ j ≠ i ∧ j ∈ share.openList) :
    Counting
      ((r.put sh { share with openList := list, openCount := share.openCount - 1 }).setInfo i none)
      pin := by
  have hhandles :
      ((r.put sh { share with openList := list, openCount := share.openCount - 1 }).setInfo i
      none).handles = Function.update r.handles i none := by
    rw [handles_setInfo]
    rfl
  have hhandle : r.handles i = some sh := by
    rw [Registry.handles, hi, Option.map_some, hs]
  refine h.rewrites ⟨hsh, rfl, rfl, rfl, rfl,
    rfl, fun x hx j => ?_, fun x hx => ?_, fun _ _ _ => Iff.rfl⟩ ?_ ?_ h.pins_finite ?_ hnodup ?_
  · by_cases hj : j = i
    · subst hj
      have hne : info ≠ ⟨x, true⟩ := by
        intro heq
        rw [heq] at hs
        exact hx hs
      simp [hi, hne]
    · simp [hj]
  · rw [hhandles]
    apply update_ref_iff
    · simp
    · rw [hhandle]
      intro heq
      exact hx (Option.some.inj heq).symm
  · intro j hj
    by_cases hji : j = i
    · subst hji
      simp at hj
    · rw [infos_setInfo, Function.update_of_ne hji] at hj
      exact h.info_below j hj
  · rw [hhandles]
    exact h.handles_finite.update i none
  · rw [hhandles]
    have hcount := h.count sh share hsh
    have hdrop := count_drop_self h.handles_finite hhandle
    show share.openCount - 1 = _
    omega
  · intro j
    rw [hlist, h.open_mem sh share hsh j]
    by_cases hj : j = i
    · subst hj
      simp
    · simp [hj]

/-- The loop finds its node, or the node is not there. -/
theorem unlinkNode_eq {live : Nat → Bool} {x : Nat} {l : List Nat} (h : ∀ y ∈ l, live y = true) :
    unlinkNode live x l = some (l.erase x) := by
  induction l with
  | nil => rfl
  | cons y rest ih =>
      have hrest := ih fun z hz => h z (List.mem_cons_of_mem y hz)
      have hy := h y List.mem_cons_self
      by_cases hx : y = x
      · subst hx
        simp [unlinkNode]
      · simp [unlinkNode, hx, hy, hrest]

/-- The registry without a share. -/
def Registry.without (r : Registry N κ) (sh : Nat) : Registry N κ :=
  { r with
    shares := Function.update r.shares sh none
    fmShareList := r.fmShareList.erase sh
    freed := sh :: r.freed }

/-- Every listed share is live. -/
theorem Listing.live (h : Listing r) : ∀ y ∈ r.fmShareList, r.live y = true := by
  intro y hy
  obtain ⟨share, hshare, -⟩ := shares_of_kind ((h.listed y).mp hy)
  simp [Registry.live, hshare]

/-- `fm_free` takes a share that is there out of the registry. -/
theorem fmFree_eq (h : Listing r) (hsh : r.shares sh = some share) : fmFree r sh = some
    (r.without sh) := by
  cases hint : share.internal with
  | true =>
      have hnot : sh ∉ r.fmShareList := by
        rw [h.listed, kind_of_shares hsh, hint]
        simp
      simp [fmFree, hsh, hint, Registry.without, List.erase_of_not_mem hnot]
  | false =>
      simp [fmFree, hsh, hint, fmShareListRemove, unlinkNode_eq h.live, Registry.without]

/-- Only the freed share is gone. -/
theorem kind_without : (r.without sh).kind = Function.update r.kind sh none := by
  funext x
  by_cases hx : x = sh
  · subst hx
    simp [Registry.kind, Registry.without]
  · simp [Registry.kind, Registry.without, hx]

/-- A share may be freed without disturbing the list. -/
theorem Listing.without (h : Listing r) (hlive : r.kind sh ≠ none) : Listing (r.without sh) where
  list_nodup := h.list_nodup.erase sh
  listed := by
    intro x
    rw [kind_without]
    show x ∈ r.fmShareList.erase sh ↔ _
    rw [h.list_nodup.mem_erase_iff, h.listed]
    by_cases hx : x = sh
    · subst hx
      simp
    · simp [hx]
  freed_nodup := by
    apply List.Nodup.cons _ h.freed_nodup
    rw [h.freed_iff]
    exact fun hmem => hlive hmem.2
  freed_iff := by
    intro x
    rw [kind_without]
    show x ∈ sh :: r.freed ↔ x < r.nextShare ∧ _
    rw [List.mem_cons, h.freed_iff]
    by_cases hx : x = sh
    · subst hx
      simp [h.share_below x hlive]
    · simp [hx]
  share_below := by
    intro x hx
    rw [kind_without] at hx
    apply h.share_below
    by_cases heq : x = sh
    · subst heq
      simp at hx
    · rwa [Function.update_of_ne heq] at hx

/-- A share that nobody refers to is freed. -/
theorem Counting.without (h : Counting r pin) (hsh : r.shares sh = some share)
    (hzero : share.openCount = 0) : Counting (r.without sh) pin := by
  have hcount := h.count sh share hsh
  have hhandle : ∀ j, r.handles j ≠ some sh := by
    intro j hj
    have hpos := count_pos h.handles_finite hj
    omega
  have hpin : ∀ j, pin j ≠ some sh := by
    intro j hj
    have hpos := count_pos h.pins_finite hj
    omega
  have hlive : r.kind sh ≠ none := by simp [kind_of_shares hsh]
  have hother : ∀ x y, (r.without sh).shares x = some y → r.shares x = some y := by
    intro x y hy
    have hy : Function.update r.shares sh none x = some y := hy
    by_cases hx : x = sh
    · subst hx
      simp at hy
    · rwa [Function.update_of_ne hx] at hy
  refine ⟨h.toListing.without hlive, h.info_below, ?_, ?_, h.handles_finite,
    h.pins_finite, ?_, ?_, ?_⟩
  · intro j x hj
    have hx : x ≠ sh := fun heq => hhandle j (heq ▸ hj)
    rw [kind_without, Function.update_of_ne hx]
    exact h.handle_live j x hj
  · intro j x hj
    have hx : x ≠ sh := fun heq => hpin j (heq ▸ hj)
    rw [kind_without, Function.update_of_ne hx]
    exact h.pin_live j x hj
  · exact fun x y hy => h.count x y (hother x y hy)
  · exact fun x y hy => h.open_nodup x y (hother x y hy)
  · exact fun x y hy => h.open_mem x y (hother x y hy)

/-- The next share is not in use. -/
theorem Listing.shares_next (h : Listing r) : r.shares r.nextShare = none := by
  by_contra hne
  obtain ⟨share, hshare⟩ := Option.ne_none_iff_exists'.mp hne
  have hlive : r.kind r.nextShare ≠ none := by simp [kind_of_shares hshare]
  exact Nat.lt_irrefl _ (h.share_below _ hlive)

section Create

variable {name : N} {internalTable : Bool} {core : κ}

/-- A new share takes the next number, with no handle and no row. -/
theorem shares_addShare : (addShare r name internalTable core).shares
    = Function.update r.shares r.nextShare
      (some ⟨name, core, 0, internalTable, internalTable, []⟩) := by
  cases internalTable <;> rfl

/-- It is of the kind it was asked to be. -/
theorem kind_addShare :
    (addShare r name internalTable core).kind = Function.update r.kind r.nextShare
    (some internalTable) := by
  funext x
  rw [Registry.kind, shares_addShare]
  by_cases hx : x = r.nextShare
  · subst hx
    simp
  · simp [hx, Registry.kind]

/-- Adding a share touches no handle. -/
theorem infos_addShare : (addShare r name internalTable core).infos = r.infos := by
  cases internalTable <;> rfl

/-- A new share makes no handle. -/
theorem nextInfo_addShare : (addShare r name internalTable core).nextInfo = r.nextInfo := by
  cases internalTable <;> rfl

/-- A new share has no handle yet. -/
theorem handles_addShare : (addShare r name internalTable core).handles = r.handles := by
  cases internalTable <;> rfl

/-- The new share takes the next number. -/
theorem nextShare_addShare : (addShare r name internalTable core).nextShare = r.nextShare + 1 := by
  cases internalTable <;> rfl

/-- Adding a share frees none. -/
theorem freed_addShare : (addShare r name internalTable core).freed = r.freed := by
  cases internalTable <;> rfl

/-- An internal table is not listed. -/
theorem list_addShare : (addShare r name internalTable core).fmShareList
    = if internalTable then r.fmShareList else r.nextShare :: r.fmShareList := by
  cases internalTable <;> rfl

/-- A share may be added without disturbing the list. -/
theorem Listing.addShare (h : Listing r) : Listing (addShare r name internalTable core) := by
  have hnone : r.kind r.nextShare = none := by simp [Registry.kind, h.shares_next]
  have hnew : r.nextShare ∉ r.fmShareList := by
    rw [h.listed, hnone]
    simp
  refine ⟨?_, ?_, ?_, ?_, ?_⟩
  · rw [list_addShare]
    cases internalTable with
    | true => exact h.list_nodup
    | false => exact List.Nodup.cons hnew h.list_nodup
  · intro x
    rw [list_addShare, kind_addShare]
    by_cases hx : x = r.nextShare
    · subst hx
      cases internalTable <;> simp [hnew]
    · cases internalTable <;> simp [hx, h.listed x]
  · rw [freed_addShare]
    exact h.freed_nodup
  · intro x
    rw [freed_addShare, kind_addShare, nextShare_addShare, h.freed_iff]
    by_cases hx : x = r.nextShare
    · subst hx
      simp
    · rw [Function.update_of_ne hx]
      constructor
      · exact fun hmem => ⟨Nat.lt_succ_of_lt hmem.1, hmem.2⟩
      · exact fun hmem => ⟨by omega, hmem.2⟩
  · intro x hx
    rw [kind_addShare] at hx
    rw [nextShare_addShare]
    by_cases heq : x = r.nextShare
    · omega
    · rw [Function.update_of_ne heq] at hx
      exact Nat.lt_succ_of_lt (h.share_below x hx)

/-- A share is created, and nobody refers to it yet. -/
theorem Counting.addShare (h : Counting r pin) :
    Counting (addShare r name internalTable core) pin := by
  have hnone : r.kind r.nextShare = none := by simp [Registry.kind, h.toListing.shares_next]
  have hhandle : ∀ j, r.handles j ≠ some r.nextShare := fun j hj => h.handle_live j _ hj hnone
  have hpin : ∀ j, pin j ≠ some r.nextShare := fun j hj => h.pin_live j _ hj hnone
  have hlive : ∀ x, r.kind x ≠ none →
      (FastMem.addShare r name internalTable core).kind x ≠ none := by
    intro x hx
    rw [kind_addShare, Function.update_of_ne]
    · exact hx
    · exact fun heq => hx (heq ▸ hnone)
  have hother : ∀ x y, (FastMem.addShare r name internalTable core).shares x = some y →
      x = r.nextShare ∧ y = ⟨name, core, 0, internalTable, internalTable, []⟩ ∨
      r.shares x = some y := by
    intro x y hy
    rw [shares_addShare] at hy
    by_cases hx : x = r.nextShare
    · subst hx
      rw [Function.update_self] at hy
      exact Or.inl ⟨rfl, (Option.some.inj hy).symm⟩
    · rw [Function.update_of_ne hx] at hy
      exact Or.inr hy
  refine ⟨h.toListing.addShare, ?_, ?_, ?_, ?_, h.pins_finite, ?_, ?_, ?_⟩
  · rw [infos_addShare, nextInfo_addShare]
    exact h.info_below
  · rw [handles_addShare]
    exact fun j x hj => hlive x (h.handle_live j x hj)
  · exact fun j x hj => hlive x (h.pin_live j x hj)
  · rw [handles_addShare]
    exact h.handles_finite
  · intro x y hy
    rw [handles_addShare]
    rcases hother x y hy with ⟨rfl, rfl⟩ | hy
    · rw [count_eq_zero hhandle, count_eq_zero hpin]
    · exact h.count x y hy
  · intro x y hy
    rcases hother x y hy with ⟨-, rfl⟩ | hy
    · exact List.nodup_nil
    · exact h.open_nodup x y hy
  · intro x y hy j
    rw [infos_addShare]
    rcases hother x y hy with ⟨rfl, rfl⟩ | hy
    · have hno : r.infos j ≠ some ⟨r.nextShare, true⟩ := by
        intro hj
        apply hhandle j
        simp [Registry.handles, hj]
      simp [hno]
    · exact h.open_mem x y hy j

end Create

end FastMem
