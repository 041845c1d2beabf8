import FastMem.RegistryCalls

/-!
# Handlers and the registry

Any number of handler objects make calls of the registry in any order.  Each of them has
at most one reference: a pin while it opens a table, an internal share that no one else
knows, or an open handle.  The counts of the registry are those of these references, and
no call follows a pointer to a share or a handle that has been freed.
-/

namespace FastMem

open RefCount

variable {N κ : Type} {w : Engine N κ} {r : Registry N κ} {c : Client N} {t : Nat}

/-- The share that a handler has pinned. -/
def Client.pin (c : Client N) : Option Nat :=
  match c.stage with
  | .created sh | .noHandle sh => if c.internalTable then none else some sh
  | _ => none

/-- The internal share that a handler has created and not opened. -/
def Client.owned (c : Client N) : Option Nat :=
  match c.stage with
  | .created sh | .noHandle sh => if c.internalTable then some sh else none
  | _ => none

/-- The handle of a handler. -/
def Client.file (c : Client N) : Option Nat :=
  match c.stage with
  | .opened i | .dropping i => some i
  | _ => none

/-- The pins of all handlers. -/
def Engine.pins (w : Engine N κ) (t : Nat) : Option Nat := (w.clients t).pin

/-- The registry is right about the handlers, and each of them has what it refers to for
itself. -/
structure Engine.Ok (w : Engine N κ) : Prop where
  registry : RegistryOk w.reg w.pins
  files : ∀ t i, (w.clients t).file = some i → w.reg.infos i ≠ none
  held : ∀ i, w.reg.infos i ≠ none → ∃ t, (w.clients t).file = some i
  files_inj : ∀ t t' i, (w.clients t).file = some i → (w.clients t').file = some i → t = t'
  owned : ∀ t sh, (w.clients t).owned = some sh → Private w.reg sh
  owned_inj : ∀ t t' sh, (w.clients t).owned = some sh → (w.clients t').owned = some sh → t = t'

/-- The engine begins in order. -/
theorem Engine.ok_start (N κ : Type) : (Engine.start N κ).Ok where
  registry :=
    { list_nodup := List.nodup_nil
      listed := by simp [Engine.start, Registry.empty, Registry.kind]
      freed_nodup := List.nodup_nil
      freed_iff := by simp [Engine.start, Registry.empty]
      share_below := by simp [Engine.start, Registry.empty, Registry.kind]
      info_below := by simp [Engine.start, Registry.empty]
      handle_live := by simp [Engine.start, Registry.empty, Registry.handles]
      pin_live := by simp [Engine.start, Engine.pins, Client.new, Client.pin]
      handles_finite := by simp [Finitely, Engine.start, Registry.empty, Registry.handles]
      pins_finite := by simp [Finitely, Engine.start, Engine.pins, Client.new, Client.pin]
      count := by simp [Engine.start, Registry.empty]
      open_nodup := by simp [Engine.start, Registry.empty]
      open_mem := by simp [Engine.start, Registry.empty]
      noLeak := by simp [NoLeak, Engine.start, Registry.empty] }
  files := by simp [Engine.start, Client.new, Client.file]
  held := by simp [Engine.start, Registry.empty]
  files_inj := by simp [Engine.start, Client.new, Client.file]
  owned := by simp [Engine.start, Client.new, Client.owned]
  owned_inj := by simp [Engine.start, Client.new, Client.owned]

/-- One client's reference changes, and the others stay. -/
theorem Engine.pins_update :
    Engine.pins ⟨r, Function.update w.clients t c⟩ = Function.update w.pins t c.pin := by
  funext x
  by_cases hx : x = t
  · subst hx
    simp [Engine.pins]
  · simp [Engine.pins, hx]

/-- A reference that handler `t` takes for itself. -/
theorem inj_update {α : Type} {f : Client N → Option α}
    (h : ∀ x y a, f (w.clients x) = some a → f (w.clients y) = some a → x = y)
    (hc : ∀ a, f c = some a → ∀ x, x ≠ t → f (w.clients x) ≠ some a) (x y : Nat) (a : α)
    (hx : f (Function.update w.clients t c x) = some a)
    (hy : f (Function.update w.clients t c y) = some a) : x = y := by
  by_cases hxt : x = t
  · by_cases hyt : y = t
    · rw [hxt, hyt]
    · rw [hxt, Function.update_self] at hx
      rw [Function.update_of_ne hyt] at hy
      exact absurd hy (hc a hx y hyt)
  · rw [Function.update_of_ne hxt] at hx
    by_cases hyt : y = t
    · rw [hyt, Function.update_self] at hy
      exact absurd hx (hc a hy x hxt)
    · rw [Function.update_of_ne hyt] at hy
      exact h x y a hx hy

/-- Handler `t` has made a call: what is to be shown of its own references, and of those
of the other handlers. -/
theorem Engine.Ok.update (h : w.Ok) (hreg : RegistryOk r (Function.update w.pins t c.pin))
    (hfile : ∀ i, c.file = some i → r.infos i ≠ none ∧ ∀ x, x ≠ t → (w.clients x).file ≠ some i)
    (hfiles : ∀ x, x ≠ t → ∀ i, (w.clients x).file = some i → r.infos i ≠ none)
    (hheld : ∀ i, r.infos i ≠ none → c.file = some i ∨ ∃ x, x ≠ t ∧ (w.clients x).file = some i)
    (hown : ∀ sh, c.owned = some sh → Private r sh ∧ ∀ x, x ≠ t → (w.clients x).owned ≠ some sh)
    (howned : ∀ x, x ≠ t → ∀ sh, (w.clients x).owned = some sh → Private r sh) :
    Engine.Ok ⟨r, Function.update w.clients t c⟩ where
  registry := by
    rw [Engine.pins_update]
    exact hreg
  files := by
    intro x i hx
    by_cases hxt : x = t
    · subst hxt
      simp only [Function.update_self] at hx
      exact (hfile i hx).1
    · simp only [Function.update_of_ne hxt] at hx
      exact hfiles x hxt i hx
  held := by
    intro i hi
    rcases hheld i hi with hc | ⟨x, hxt, hx⟩
    · exact ⟨t, by simp only [Function.update_self]; exact hc⟩
    · exact ⟨x, by simp only [Function.update_of_ne hxt]; exact hx⟩
  files_inj := inj_update h.files_inj fun i hi => (hfile i hi).2
  owned := by
    intro x sh hx
    by_cases hxt : x = t
    · subst hxt
      simp only [Function.update_self] at hx
      exact (hown sh hx).1
    · simp only [Function.update_of_ne hxt] at hx
      exact howned x hxt sh hx
  owned_inj := inj_update h.owned_inj fun sh hsh => (hown sh hsh).2

/-- A call that keeps what the other handlers rely on: what handler `t` holds after it is
new, or was its own before. -/
theorem Engine.Ok.keeps {o : Option Nat} (h : w.Ok) (hkeeps : KeepsOthers w.reg r o)
    (hreg : RegistryOk r (Function.update w.pins t c.pin))
    (hnew : ∀ i, o = some i → w.reg.infos i = none)
    (hfile : ∀ i, c.file = some i ↔ (w.clients t).file = some i ∨ o = some i)
    (hown : ∀ sh, c.owned = some sh → (w.clients t).owned = some sh ∨
      w.reg.shares sh = none ∧ Private r sh) :
    Engine.Ok ⟨r, Function.update w.clients t c⟩ := by
  apply h.update hreg
  · intro i hi
    rcases (hfile i).mp hi with hold | ho
    · refine ⟨(hkeeps.infos i).mpr (Or.inl (h.files t i hold)), ?_⟩
      intro x hx hxi
      exact hx (h.files_inj x t i hxi hold)
    · refine ⟨(hkeeps.infos i).mpr (Or.inr ho), ?_⟩
      intro x _ hxi
      exact h.files x i hxi (hnew i ho)
  · exact fun x _ i hi => (hkeeps.infos i).mpr (Or.inl (h.files x i hi))
  · intro i hi
    rcases (hkeeps.infos i).mp hi with hold | ho
    · obtain ⟨x, hx⟩ := h.held i hold
      by_cases hxt : x = t
      · exact Or.inl ((hfile i).mpr (Or.inl (hxt ▸ hx)))
      · exact Or.inr ⟨x, hxt, hx⟩
    · exact Or.inl ((hfile i).mpr (Or.inr ho))
  · intro sh hsh
    rcases hown sh hsh with hold | ⟨hnone, hnew⟩
    · refine ⟨hkeeps.privates sh (h.owned t sh hold), ?_⟩
      intro x hx hxsh
      exact hx (h.owned_inj x t sh hxsh hold)
    · refine ⟨hnew, ?_⟩
      intro x _ hxsh
      exact (h.owned x sh hxsh).live hnone
  · exact fun x _ sh hsh => hkeeps.privates sh (h.owned x sh hsh)

/-- A handler that has no pin, before and after. -/
theorem Engine.pins_same (hpin : c.pin = (w.clients t).pin) :
    Function.update w.pins t c.pin = w.pins := by
  rw [hpin]
  exact Function.update_eq_self t w.pins

/-- A call after which the handler has the pin and the handle it had before, or none. -/
theorem Engine.Ok.stay (h : w.Ok) (hreg : RegistryOk r w.pins) (hkeeps : KeepsOthers w.reg r none)
    (hpin : c.pin = (w.clients t).pin) (hfile : c.file = (w.clients t).file)
    (hown : ∀ sh, c.owned = some sh → (w.clients t).owned = some sh) :
    Engine.Ok ⟨r, Function.update w.clients t c⟩ := by
  apply h.keeps hkeeps
  · rw [Engine.pins_same hpin]
    exact hreg
  · exact nofun
  · simp [hfile]
  · exact fun sh hsh => Or.inl (hown sh hsh)

/-- What a call by handler `t` comes to. -/
def Proceeds [DecidableEq N] (w : Engine N κ) (t : Nat) (a : HaCall N κ) : Prop :=
  a.run (w.clients t) w.reg = .notNow ∨
    ∃ c r, a.run (w.clients t) w.reg = .done c r ∧ Engine.Ok ⟨r, Function.update w.clients t c⟩

/-- A handle that handler `t` has open. -/
theorem Engine.Ok.handle (h : w.Ok) {i : Nat} (hi : (w.clients t).file = some i) :
    ∃ info share, w.reg.infos i = some info ∧ w.reg.shares info.s = some share ∧
    share.openCount ≠ 0 := by
  obtain ⟨info, hinfo⟩ := Option.ne_none_iff_exists'.mp (h.files t i hi)
  have hhandle : w.reg.handles i = some info.s := by simp [Registry.handles, hinfo]
  obtain ⟨share, hshare⟩ := shares_of_live (h.registry.handle_live i _ hhandle)
  have hcount := h.registry.count _ share hshare
  have hpos := count_pos h.registry.handles_finite hhandle
  exact ⟨info, share, hinfo, hshare, by omega⟩

/-- An internal share is opened by the handler that created it. -/
theorem Engine.Ok.openInternal (h : w.Ok) {sh : Nat} (hs : (w.clients t).stage = .created sh)
    (hint : (w.clients t).internalTable = true) {share : FmShare N κ}
    (hsh : w.reg.shares sh = some share)
    (hown : ∀ x, x ≠ t → ∀ y, (w.clients x).owned = some y → y ≠ sh) :
    Engine.Ok ⟨(w.reg.put sh share.incr).addInfo sh,
      Function.update w.clients t ⟨.opened w.reg.nextInfo, true⟩⟩ := by
  have hnone := h.registry.infos_next
  have hnew : ((w.reg.put sh share.incr).addInfo sh).infos w.reg.nextInfo ≠ none := by
    simp [Registry.addInfo, Registry.setInfo, Registry.put]
  have hkept : ∀ i, w.reg.infos i ≠ none →
      ((w.reg.put sh share.incr).addInfo sh).infos i ≠ none := by
    intro i hi
    have hne : i ≠ w.reg.nextInfo := fun heq => hi (heq ▸ hnone)
    have hold : ((w.reg.put sh share.incr).addInfo sh).infos i = w.reg.infos i :=
      Function.update_of_ne hne _ _
    rw [hold]
    exact hi
  apply h.update
  · rw [Engine.pins_same]
    · exact ⟨h.registry.toCounting.addHandle hsh,
        h.registry.noLeak.put fun _ _ => Nat.succ_ne_zero _⟩
    · simp [Client.pin, hs, hint]
  · intro i hi
    obtain rfl : w.reg.nextInfo = i := Option.some.inj hi
    exact ⟨hnew, fun x _ hx => h.files x _ hx hnone⟩
  · exact fun x _ i hi => hkept i (h.files x i hi)
  · intro i hi
    by_cases hne : i = w.reg.nextInfo
    · exact Or.inl (congrArg some hne.symm)
    · have hold : w.reg.infos i ≠ none := by
        simpa [Registry.addInfo, Registry.setInfo, Registry.put, hne] using hi
      obtain ⟨x, hx⟩ := h.held i hold
      refine Or.inr ⟨x, ?_, hx⟩
      rintro rfl
      simp [Client.file, hs] at hx
  · intro y hy
    cases hy
  · intro x hx y hy
    exact (h.owned x y hy).of_eq (Function.update_of_ne (hown x hx y hy) _ _)

/-- A handler closes its handle. -/
theorem Engine.Ok.close (h : w.Ok) {i : Nat} (hfile : (w.clients t).file = some i)
    (hpin : (w.clients t).pin = none) : ∃ r, fmClose w.reg i = some r ∧
      Engine.Ok ⟨r, Function.update w.clients t { w.clients t with stage := .idle }⟩ := by
  obtain ⟨info, share, hinfo, hsh, hne⟩ := h.handle hfile
  obtain ⟨r, heq, hok, hshares, hinfos⟩ := fmClose_spec h.registry hinfo
  refine ⟨r, heq, ?_⟩
  apply h.update
  · rw [Engine.pins_same]
    · exact hok
    · exact hpin.symm
  · intro j hj
    cases hj
  · intro x hx j hj
    have hji : j ≠ i := fun heq' => hx (h.files_inj x t i (heq' ▸ hj) hfile)
    exact (hinfos j).mpr ⟨hji, h.files x j hj⟩
  · intro j hj
    obtain ⟨hji, hlive⟩ := (hinfos j).mp hj
    obtain ⟨x, hx⟩ := h.held j hlive
    refine Or.inr ⟨x, ?_, hx⟩
    rintro rfl
    exact hji (Option.some.inj (hx.symm.trans hfile))
  · intro y hy
    cases hy
  · intro x hx y hy
    have hpriv := h.owned x y hy
    have hys : y ≠ info.s := fun heq' => not_private_of_count hsh hne (heq' ▸ hpriv)
    exact hpriv.of_eq (hshares y hys)

/-- A write through an open handle that changes no count. -/
theorem Engine.Ok.throughHandle (h : w.Ok) {i : Nat} (hfile : (w.clients t).file = some i)
    (f : FmShare N κ → FmShare N κ)
    (hf : ∀ share, (f share).internal = share.internal ∧ (f share).openCount = share.openCount ∧
      (f share).openList = share.openList) :
    ∃ r, FastMem.throughHandle w.reg i f = some r ∧ RegistryOk r w.pins ∧
    KeepsOthers w.reg r none := by
  obtain ⟨info, share, hinfo, hsh, hne⟩ := h.handle hfile
  obtain ⟨hint, hcount, hlist⟩ := hf share
  refine ⟨w.reg.put info.s (f share), by simp [FastMem.throughHandle, hinfo, modify_live hsh],
    ⟨h.registry.toCounting.relabel hsh hint hcount hlist, h.registry.noLeak.put ?_⟩,
    Touches.put.keeps (not_private_of_count hsh hne)⟩
  intro _ _
  rw [hcount]
  exact hne

section Calls

variable [DecidableEq N] (h : w.Ok)
include h

/-- The open of a table proceeds, whatever it finds. -/
theorem proceeds_openTable (name : N) (internal alloc : Bool) : Proceeds w t
    (.openTable name internal alloc) := by
  cases hs : (w.clients t).stage with
  | idle =>
      cases internal with
      | true =>
          refine Or.inr ⟨⟨.noEntry name, true⟩, w.reg, HaCall.run_at hs, ?_⟩
          apply h.stay h.registry (.refl _)
          · simp [Client.pin, hs]
          · simp [Client.file, hs]
          · simp [Client.owned]
      | false =>
          obtain ⟨res, r, heq, hok, hkeeps, hnew⟩ := fmOpen_spec h.registry name alloc
          refine Or.inr ⟨⟨.afterOpen name res, false⟩, r,
            (HaCall.run_at hs).trans (Outcome.of_some heq _), ?_⟩
          apply h.keeps hkeeps
          · rw [Engine.pins_same]
            · exact hok
            · cases res with
              | ok i => simp [Client.pin, Stage.afterOpen, hs]
              | error e => cases e <;> simp [Client.pin, Stage.afterOpen, hs]
          · intro i hi
            cases res with
            | ok j =>
                obtain rfl : j = i := Option.some.inj hi
                exact hnew j rfl
            | error e => cases hi
          · intro i
            cases res with
            | ok j => simp [Client.file, Stage.afterOpen, Except.toOption, hs]
            | error e => cases e <;> simp [Client.file, Stage.afterOpen, Except.toOption, hs]
          · intro sh hsh
            cases res with
            | ok j => cases hsh
            | error e => cases e <;> cases hsh
  | _ => exact Or.inl (by cases internal <;> exact HaCall.run_at hs)

theorem proceeds_prepareFails : Proceeds w t .prepareFails := by
  cases hs : (w.clients t).stage with
  | noEntry name =>
      refine Or.inr ⟨{ w.clients t with stage := .idle }, w.reg, HaCall.run_at hs, ?_⟩
      apply h.stay h.registry (.refl _)
      · simp [Client.pin, hs]
      · simp [Client.file, hs]
      · simp [Client.owned]
  | _ => exact Or.inl (HaCall.run_at hs)

theorem proceeds_createShare (fresh : Option κ) : Proceeds w t (.createShare fresh) := by
  cases hs : (w.clients t).stage with
  | noEntry name =>
      cases hint : (w.clients t).internalTable with
      | false =>
          have hpin : w.pins t = none := by simp [Engine.pins, Client.pin, hs]
          obtain ⟨res, r, heq, hok, hkeeps⟩ := fmCreate_spec h.registry name fresh hpin
          refine Or.inr ⟨⟨.afterCreate res, false⟩, r, ?_, ?_⟩
          · exact (HaCall.run_as hs hint).trans (Outcome.of_some heq _)
          · apply h.keeps hkeeps
            · cases res with
              | none => exact hok
              | some p =>
                  have hnew : (⟨.afterCreate (some p), false⟩ : Client N).pin = some p.1 := by
                    simp [Client.pin, Stage.afterCreate]
                  rw [hnew]
                  exact hok
            · exact nofun
            · intro i
              cases res <;> simp [Client.file, Stage.afterCreate, hs]
            · intro sh hsh
              cases res <;> simp [Client.owned, Stage.afterCreate] at hsh
      | true =>
          obtain ⟨res, r, heq, hok, hkeeps, hnew⟩ := fmCreate_internal h.registry name true fresh
          refine Or.inr ⟨⟨.afterCreate res, true⟩, r, ?_, ?_⟩
          · exact (HaCall.run_as hs hint).trans (Outcome.of_some heq _)
          · apply h.keeps hkeeps
            · rw [Engine.pins_same]
              · exact hok
              · cases res <;> simp [Client.pin, Stage.afterCreate, hs]
            · exact nofun
            · intro i
              cases res <;> simp [Client.file, Stage.afterCreate, hs]
            · intro sh hsh
              cases res with
              | none => cases hsh
              | some p =>
                  obtain rfl : p.1 = sh := by
                    simpa [Client.owned, Stage.afterCreate, hint] using hsh
                  exact Or.inr ((hnew p.1 p.2 rfl).symm)
  | _ => exact Or.inl (HaCall.run_at hs)

theorem proceeds_openShare (alloc : Bool) : Proceeds w t (.openShare alloc) := by
  cases hs : (w.clients t).stage with
  | created sh =>
      cases hint : (w.clients t).internalTable with
      | false =>
          have hpin : w.pins t = some sh := by simp [Engine.pins, Client.pin, hs, hint]
          cases alloc with
          | true =>
              obtain ⟨r, heq, hok, hkeeps, hnone⟩ := fmOpenFromShareAndRegister_spec h.registry hpin
              refine Or.inr ⟨⟨.opened w.reg.nextInfo, false⟩, r, ?_, ?_⟩
              · exact (HaCall.run_as hs hint).trans (Outcome.of_some heq _)
              · apply h.keeps hkeeps hok
                · intro i hi
                  obtain rfl : w.reg.nextInfo = i := Option.some.inj hi
                  exact hnone
                · simp [Client.file, hs]
                · intro y hy
                  cases hy
          | false =>
              obtain ⟨share, hsh⟩ := shares_of_live (h.registry.pin_live t sh hpin)
              refine Or.inr ⟨⟨.noHandle sh, false⟩, w.reg, ?_, ?_⟩
              · exact (HaCall.run_as hs hint).trans
                  (Outcome.of_some (fmOpenFromShareAndRegister_noMem hsh) _)
              · apply h.stay h.registry (.refl _)
                · simp [Client.pin, hs, hint]
                · simp [Client.file, hs]
                · simp [Client.owned, hint]
      | true =>
          have hown : (w.clients t).owned = some sh := by simp [Client.owned, hs, hint]
          obtain ⟨share, hsh, -, -⟩ := h.owned t sh hown
          cases alloc with
          | true =>
              refine Or.inr ⟨_, _, ?_, h.openInternal hs hint hsh ?_⟩
              · exact (HaCall.run_as hs hint).trans
                  (Outcome.of_some (fmOpenFromShareLocked_eq hsh) _)
              · intro x hx y hy heq
                exact hx (h.owned_inj x t sh (heq ▸ hy) hown)
          | false =>
              refine Or.inr ⟨⟨.noHandle sh, true⟩, w.reg, ?_, ?_⟩
              · exact (HaCall.run_as hs hint).trans
                  (Outcome.of_some (fmOpenFromShareLocked_noMem hsh) _)
              · apply h.stay h.registry (.refl _)
                · simp [Client.pin, hs, hint]
                · simp [Client.file, hs]
                · simp [Client.owned, hs, hint]
  | _ => exact Or.inl (HaCall.run_at hs)

theorem proceeds_releaseShare : Proceeds w t .releaseShare := by
  cases hs : (w.clients t).stage with
  | noHandle sh =>
      cases hint : (w.clients t).internalTable with
      | false =>
          have hpin : w.pins t = some sh := by simp [Engine.pins, Client.pin, hs, hint]
          obtain ⟨share, hsh⟩ := shares_of_live (h.registry.pin_live t sh hpin)
          have hcount := h.registry.count sh share hsh
          have hpos := count_pos h.registry.pins_finite hpin
          have hne : share.openCount ≠ 0 := by omega
          obtain ⟨r, heq, hok, htouch⟩ := fmReleaseShare_spec h.registry hpin
          refine Or.inr ⟨⟨.idle, false⟩, r, ?_, ?_⟩
          · exact (HaCall.run_as hs hint).trans (Outcome.after_some heq _)
          · apply h.keeps (htouch.keeps (not_private_of_count hsh hne)) hok
            · exact nofun
            · simp [Client.file, hs]
            · intro y hy
              cases hy
      | true =>
          have hown : (w.clients t).owned = some sh := by simp [Client.owned, hs, hint]
          obtain ⟨share, hsh, -, hzero⟩ := h.owned t sh hown
          have heq := fmFree_eq h.registry.toListing hsh
          refine Or.inr ⟨⟨.idle, true⟩, w.reg.without sh, ?_, ?_⟩
          · exact (HaCall.run_as hs hint).trans (Outcome.after_some heq _)
          · apply h.update
            · rw [Engine.pins_same]
              · exact ⟨h.registry.toCounting.without hsh hzero,
                  .without (h.registry.noLeak.others fun _ _ => rfl)⟩
              · simp [Client.pin, hs, hint]
            · intro i hi
              cases hi
            · exact fun x _ i hi => h.files x i hi
            · intro i hi
              obtain ⟨x, hx⟩ := h.held i hi
              refine Or.inr ⟨x, ?_, hx⟩
              rintro rfl
              simp [Client.file, hs] at hx
            · intro y hy
              cases hy
            · intro x hx y hy
              have hne : y ≠ sh := fun heq' => hx (h.owned_inj x t sh (heq' ▸ hy) hown)
              exact (h.owned x y hy).of_eq (Function.update_of_ne hne _ _)
  | _ => exact Or.inl (HaCall.run_at hs)

theorem proceeds_close : Proceeds w t .close := by
  cases hs : (w.clients t).stage with
  | opened i =>
      obtain ⟨r, heq, hok⟩ :=
        h.close (t := t) (i := i) (by simp [Client.file, hs]) (by simp [Client.pin, hs])
      exact Or.inr ⟨_, r, (HaCall.run_at hs).trans (Outcome.after_some heq _), hok⟩
  | dropping i =>
      obtain ⟨r, heq, hok⟩ :=
        h.close (t := t) (i := i) (by simp [Client.file, hs]) (by simp [Client.pin, hs])
      exact Or.inr ⟨_, r, (HaCall.run_at hs).trans (Outcome.after_some heq _), hok⟩
  | _ => exact Or.inl (HaCall.run_at hs)

theorem proceeds_dropTable : Proceeds w t .dropTable := by
  cases hs : (w.clients t).stage with
  | opened i =>
      have hfile : (w.clients t).file = some i := by simp [Client.file, hs]
      obtain ⟨r, heq, hok, hkeeps⟩ := h.throughHandle hfile
        (fun share => { share with deleteOnClose := true }) fun _ => ⟨rfl, rfl, rfl⟩
      refine Or.inr ⟨{ w.clients t with stage := .dropping i }, r, ?_, ?_⟩
      · exact (HaCall.run_at hs).trans (Outcome.after_some heq _)
      · apply h.stay hok hkeeps
        · simp [Client.pin, hs]
        · simp [Client.file, hs]
        · simp [Client.owned]
  | _ => exact Or.inl (HaCall.run_at hs)

theorem proceeds_rows (core : κ) : Proceeds w t (.rows core) := by
  cases hs : (w.clients t).stage with
  | opened i =>
      have hfile : (w.clients t).file = some i := by simp [Client.file, hs]
      obtain ⟨r, heq, hok, hkeeps⟩ := h.throughHandle hfile
        (fun share => { share with core := core }) fun _ => ⟨rfl, rfl, rfl⟩
      refine Or.inr ⟨{ w.clients t with stage := .opened i }, r,
        (HaCall.run_at hs).trans (Outcome.after_some heq _), ?_⟩
      apply h.stay hok hkeeps
      · simp [Client.pin, hs]
      · simp [Client.file, hs]
      · simp [Client.owned]
  | _ => exact Or.inl (HaCall.run_at hs)

theorem proceeds_createTable (name : N) (fresh : Option κ) : Proceeds w t
    (.createTable name fresh) := by
  cases hs : (w.clients t).stage with
  | idle =>
      cases hint : (w.clients t).internalTable with
      | false =>
          obtain ⟨res, r, heq, hok, hkeeps⟩ := fmCreate_unpinned h.registry name fresh
          refine Or.inr ⟨⟨.idle, false⟩, r,
            (HaCall.run_as hs hint).trans (Outcome.of_some heq _), ?_⟩
          apply h.stay hok hkeeps
          · simp [Client.pin, hs]
          · simp [Client.file, hs]
          · simp [Client.owned]
      | true =>
          obtain ⟨res, r, heq, hok, hkeeps, -⟩ := fmCreate_internal h.registry name false fresh
          refine Or.inr ⟨⟨.idle, true⟩, r,
            (HaCall.run_as hs hint).trans (Outcome.of_some heq _), ?_⟩
          apply h.stay hok hkeeps
          · simp [Client.pin, hs]
          · simp [Client.file, hs]
          · simp [Client.owned]
  | _ => exact Or.inl (HaCall.run_at hs)

theorem proceeds_deleteTable (name : N) : Proceeds w t (.deleteTable name) := by
  obtain ⟨res, r, heq, hok, hkeeps⟩ := fmDeleteTable_spec h.registry name
  refine Or.inr ⟨w.clients t, r, ?_, h.stay hok hkeeps rfl rfl fun _ hsh => hsh⟩
  exact Outcome.of_some heq _

theorem proceeds_renameTable (oldName newName : N) (dup : Bool) :
    Proceeds w t (.renameTable oldName newName dup) := by
  obtain ⟨res, r, heq, hok, hkeeps⟩ := fmRename_spec h.registry oldName newName dup
  refine Or.inr ⟨w.clients t, r, ?_, h.stay hok hkeeps rfl rfl fun _ hsh => hsh⟩
  exact Outcome.of_some heq _

/-- No call reads freed memory, and every call keeps the counts right. -/
theorem Engine.Ok.proceeds (t : Nat) (a : HaCall N κ) : Proceeds w t a := by
  cases a with
  | openTable name internal alloc => exact proceeds_openTable h name internal alloc
  | prepareFails => exact proceeds_prepareFails h
  | createShare fresh => exact proceeds_createShare h fresh
  | openShare alloc => exact proceeds_openShare h alloc
  | releaseShare => exact proceeds_releaseShare h
  | close => exact proceeds_close h
  | dropTable => exact proceeds_dropTable h
  | createTable name fresh => exact proceeds_createTable h name fresh
  | deleteTable name => exact proceeds_deleteTable h name
  | renameTable oldName newName dup => exact proceeds_renameTable h oldName newName dup
  | rows core => exact proceeds_rows h core

end Calls

/-- Every call keeps the engine in order. -/
theorem Engine.Ok.step [DecidableEq N] {w' : Engine N κ} {a : HaCall N κ} (h : w.Ok)
    (hstep : w.Step t a w') :
    w'.Ok := by
  cases hstep with
  | call hrun =>
      rcases h.proceeds t a with hnot | ⟨c, r, hdone, hok⟩
      · rw [hnot] at hrun
        cases hrun
      · rw [hdone] at hrun
        cases hrun
        exact hok

/-- The engine is in order in every reachable state. -/
theorem Engine.Reach.ok [DecidableEq N] (h : w.Reach) : w.Ok := by
  induction h with
  | start => exact Engine.ok_start N κ
  | step _ hstep ih => exact ih.step hstep

/-- The share a handler refers to through its handle. -/
def Engine.opens (w : Engine N κ) (t : Nat) : Option Nat := (w.clients t).file.bind w.reg.handles

/-- The reference counting of shares: the handles that are allocated are those the handlers
have open, one each; `open_count` is the number of handlers that refer to the share through
a handle or by a pin; `open_list` holds the registered handles and the share list the
registered shares, each once; what a handler refers to is there, and a share that is freed is
freed once, with nobody referring to it. -/
structure ReferenceCounted (w : Engine N κ) : Prop where
  handles : ∀ i, w.reg.infos i ≠ none ↔ ∃ t, (w.clients t).file = some i
  handle_once : ∀ t t' i, (w.clients t).file = some i → (w.clients t').file = some i → t = t'
  opens_finite : Finitely w.opens
  pins_finite : Finitely w.pins
  openCount : ∀ sh share, w.reg.shares sh = some share →
    share.openCount = count w.opens sh + count w.pins sh
  openList : ∀ sh share, w.reg.shares sh = some share →
    share.openList.Nodup ∧ ∀ i, i ∈ share.openList ↔ w.reg.infos i = some ⟨sh, true⟩
  shareList : w.reg.fmShareList.Nodup ∧
    ∀ sh, sh ∈ w.reg.fmShareList ↔ ∃ share, w.reg.shares sh = some share ∧ share.internal = false
  live : ∀ t sh, w.opens t = some sh ∨ w.pins t = some sh ∨ (w.clients t).owned = some sh →
    w.reg.shares sh ≠ none
  freed_once : w.reg.freed.Nodup ∧ ∀ sh, sh ∈ w.reg.freed ↔ sh < w.reg.nextShare ∧
    w.reg.shares sh = none
  freed_unreferenced : ∀ sh ∈ w.reg.freed, ∀ t, w.opens t ≠ some sh ∧ w.pins t ≠ some sh
  noLeak : NoLeak w.reg

/-- What a client refers to is there. -/
theorem Engine.Ok.live (h : w.Ok) {sh : Nat}
    (href : w.opens t = some sh ∨ w.pins t = some sh ∨ (w.clients t).owned = some sh) :
    w.reg.shares sh ≠ none := by
  rcases href with hopen | hpin | hown
  · obtain ⟨i, -, hi⟩ := Option.bind_eq_some_iff.mp hopen
    simpa [Registry.kind] using h.registry.handle_live i sh hi
  · simpa [Registry.kind] using h.registry.pin_live t sh hpin
  · exact (h.owned t sh hown).live

/-- The references are counted in an engine that is in order. -/
theorem Engine.Ok.referenceCounted (h : w.Ok) : ReferenceCounted w where
  handles := fun i => ⟨h.held i, fun ⟨t, ht⟩ => h.files t i ht⟩
  handle_once := h.files_inj
  opens_finite := h.registry.handles_finite.bind h.files_inj
  pins_finite := h.registry.pins_finite
  openCount := by
    intro sh share hsh
    have hopens : count w.opens sh = count w.reg.handles sh := by
      refine count_bind (fun i hi => h.held i fun hnone => hi ?_) h.files_inj sh
      rw [Registry.handles, hnone, Option.map_none]
    rw [hopens]
    exact h.registry.count sh share hsh
  openList :=
    fun sh share hsh => ⟨h.registry.open_nodup sh share hsh, h.registry.open_mem sh share hsh⟩
  shareList := by
    refine ⟨h.registry.list_nodup, fun sh => ?_⟩
    rw [h.registry.listed]
    exact Option.map_eq_some_iff
  live := fun _ _ => h.live
  freed_once := by
    refine ⟨h.registry.freed_nodup, fun sh => ?_⟩
    rw [h.registry.freed_iff, Registry.kind, Option.map_eq_none_iff]
  freed_unreferenced := by
    intro sh hsh t
    have hnone : w.reg.shares sh = none :=
      Option.map_eq_none_iff.mp ((h.registry.freed_iff sh).mp hsh).2
    exact ⟨fun hopen => h.live (Or.inl hopen) hnone, fun hpin =>
      h.live (Or.inr (Or.inl hpin)) hnone⟩
  noLeak := h.registry.noLeak

/-- A share has been freed. -/
def Freed (r r' : Registry N κ) (sh : Nat) : Prop := r'.shares sh = none ∧ r'.freed = sh :: r.freed

/-- A reference to a share has been dropped: the share counts one less, or it has been freed
if that was its last reference and `p` is true of it. -/
def Dropped (r r' : Registry N κ) (sh : Nat) (p : FmShare N κ → Bool) : Prop :=
  ∃ share, r.shares sh = some share ∧ share.openCount ≠ 0 ∧
    if share.openCount = 1 ∧ p share = true then Freed r r' sh
    else ∃ list,
      r'.shares sh = some { share with openCount := share.openCount - 1, openList := list } ∧
      r'.freed = r.freed

/-- What the calls do that drop references, and those that ask for a table to be deleted:
the share is freed with its last reference, and marked until then. -/
structure DropsReferences [DecidableEq N] (w : Engine N κ) : Prop where
  close : ∀ t i, (w.clients t).file = some i → ∃ r sh, w.opens t = some sh ∧
    HaCall.close.run (w.clients t) w.reg = .done { w.clients t with stage := .idle } r ∧
    r.infos i = none ∧
      Dropped w.reg r sh FmShare.deleteOnClose
  release : ∀ t sh, (w.clients t).stage = .noHandle sh → ∃ r,
    HaCall.releaseShare.run (w.clients t) w.reg = .done ⟨.idle, (w.clients t).internalTable⟩ r ∧
      if (w.clients t).internalTable = true then Freed w.reg r sh
        else Dropped w.reg r sh fun _ => true
  drop : ∀ t i, (w.clients t).stage = .opened i → ∃ r sh share, w.opens t = some sh ∧
    w.reg.shares sh = some share ∧
    HaCall.dropTable.run (w.clients t) w.reg = .done { w.clients t with stage := .dropping i } r ∧
      r.shares sh = some { share with deleteOnClose := true }
  delete : ∀ t name, ¬ Found w.reg name none → ∃ r sh share, w.reg.shares sh = some share ∧
    share.name = name ∧ share.internal = false ∧ (HaCall.deleteTable name).run (w.clients t) w.reg =
    .done (w.clients t) r ∧
      if share.openCount = 0 then Freed w.reg r sh else r.shares sh =
        some { share with deleteOnClose := true }

/-- Either way the share has one reference less. -/
theorem dropped_of_eq {r' : Registry N κ} {sh : Nat} {share : FmShare N κ} {list : List Nat}
    {p : FmShare N κ → Bool} (hsh : r.shares sh = some share) (hne : share.openCount ≠ 0)
    (hnew : r'.shares sh = some { share with openCount := share.openCount - 1, openList := list })
    (hfreed : r'.freed = r.freed) :
    Dropped r (if share.openCount - 1 = 0 ∧ p share = true then r'.without sh else r') sh p := by
  refine ⟨share, hsh, hne, ?_⟩
  by_cases hlast : share.openCount = 1 ∧ p share = true
  · rw [if_pos hlast, if_pos ⟨by omega, hlast.2⟩]
    exact ⟨Function.update_self .., congrArg (sh :: ·) hfreed⟩
  · rw [if_neg hlast, if_neg fun hnot => hlast ⟨by omega, hnot.2⟩]
    exact ⟨list, hnew, hfreed⟩

section Drops

variable [DecidableEq N] (h : w.Ok)
include h

/-- A close drops one reference of its share. -/
theorem Engine.Ok.drops_close {i : Nat} (hfile : (w.clients t).file = some i) :
    ∃ r sh, w.opens t = some sh ∧
    HaCall.close.run (w.clients t) w.reg = .done { w.clients t with stage := .idle } r ∧
    r.infos i = none ∧
      Dropped w.reg r sh FmShare.deleteOnClose := by
  obtain ⟨info, share, hinfo, hsh, hne⟩ := h.handle hfile
  obtain ⟨list, -, -, heq⟩ := fmClose_eq h.registry.toCounting hinfo hsh
  have hopens : w.opens t = some info.s := by
    simp [Engine.opens, hfile, Registry.handles, hinfo]
  have hrun : HaCall.close.run (w.clients t) w.reg =
      .after (fmClose w.reg i) { w.clients t with stage := .idle } := by
    cases hs : (w.clients t).stage with
    | opened j | dropping j =>
        simp only [Client.file, hs, Option.some.injEq] at hfile
        subst hfile
        exact HaCall.run_at hs
    | _ => simp [Client.file, hs] at hfile
  refine ⟨_, info.s, hopens, hrun.trans (Outcome.after_some heq _), ?_, ?_⟩
  · split <;> exact Function.update_self ..
  · exact dropped_of_eq hsh hne (Function.update_self ..) rfl

theorem Engine.Ok.drops_release {sh : Nat} (hs : (w.clients t).stage = .noHandle sh) : ∃ r,
    HaCall.releaseShare.run (w.clients t) w.reg = .done ⟨.idle, (w.clients t).internalTable⟩ r ∧
      if (w.clients t).internalTable = true then Freed w.reg r sh else Dropped w.reg r sh
      fun _ => true := by
  cases hint : (w.clients t).internalTable with
  | false =>
      have hpin : w.pins t = some sh := by simp [Engine.pins, Client.pin, hs, hint]
      obtain ⟨share, hsh⟩ := shares_of_live (h.registry.pin_live t sh hpin)
      have hcount := h.registry.count sh share hsh
      have hpos := count_pos h.registry.pins_finite hpin
      have heq := fmReleaseShare_eq h.registry.toCounting hsh
      refine ⟨_, ((HaCall.run_as hs hint).trans (Outcome.after_some heq _)), ?_⟩
      rw [if_neg Bool.false_ne_true]
      have hnew : (w.reg.put sh share.decr).shares sh = some share.decr := Function.update_self ..
      have hdrop := dropped_of_eq (p := fun _ => true) hsh (by omega) hnew rfl
      simpa using hdrop
  | true =>
      have hown : (w.clients t).owned = some sh := by simp [Client.owned, hs, hint]
      obtain ⟨share, hsh, -, -⟩ := h.owned t sh hown
      have heq := fmFree_eq h.registry.toListing hsh
      refine ⟨_, (HaCall.run_as hs hint).trans (Outcome.after_some heq _), ?_⟩
      rw [if_pos rfl]
      exact ⟨Function.update_self .., rfl⟩

/-- Dropping a table that is open marks it, or drops its reference. -/
theorem Engine.Ok.drops_drop {i : Nat} (hs : (w.clients t).stage = .opened i) :
    ∃ r sh share, w.opens t = some sh ∧ w.reg.shares sh = some share ∧
    HaCall.dropTable.run (w.clients t) w.reg = .done { w.clients t with stage := .dropping i } r ∧
      r.shares sh = some { share with deleteOnClose := true } := by
  have hfile : (w.clients t).file = some i := by simp [Client.file, hs]
  obtain ⟨info, share, hinfo, hsh, -⟩ := h.handle hfile
  have hopens : w.opens t = some info.s := by
    simp [Engine.opens, hfile, Registry.handles, hinfo]
  have heq : FastMem.throughHandle w.reg i (fun share => { share with deleteOnClose := true }) =
      some (w.reg.put info.s { share with deleteOnClose := true }) := by
    simp [FastMem.throughHandle, hinfo, modify_live hsh]
  exact ⟨_, info.s, share, hopens, hsh, (HaCall.run_at hs).trans (Outcome.after_some heq _),
    Function.update_self ..⟩

/-- Deleting a table frees its share, or marks it while there are handles. -/
theorem Engine.Ok.drops_delete {name : N} (hname : ¬ Found w.reg name none) : ∃ r sh share,
    w.reg.shares sh = some share ∧ share.name = name ∧ share.internal = false ∧
      (HaCall.deleteTable name).run (w.clients t) w.reg = .done (w.clients t) r ∧
        if share.openCount = 0 then Freed w.reg r sh else r.shares sh = some
          { share with deleteOnClose := true } := by
  obtain ⟨found, hfind, hfound⟩ := fmFindNamedShare_spec h.registry.toListing name
  cases found with
  | none => exact absurd hfound hname
  | some sh =>
      obtain ⟨share, hsh, hnamed, hint⟩ := hfound
      by_cases hzero : share.openCount = 0
      · have heq : fmDeleteTable w.reg name = some (true, w.reg.without sh) := by
          simp [fmDeleteTable, hfind, fmTryFree, hsh, hzero, fmFree_eq h.registry.toListing hsh]
        refine ⟨_, sh, share, hsh, hnamed, hint, Outcome.of_some heq _, ?_⟩
        rw [if_pos hzero]
        exact ⟨Function.update_self .., rfl⟩
      · have heq : fmDeleteTable w.reg name =
            some (true, w.reg.put sh { share with deleteOnClose := true }) := by
          simp [fmDeleteTable, hfind, fmTryFree, hsh, hzero, modify_live hsh]
        refine ⟨_, sh, share, hsh, hnamed, hint, Outcome.of_some heq _, ?_⟩
        rw [if_neg hzero]
        exact Function.update_self ..

/-- Every way to give a reference up drops it. -/
theorem Engine.Ok.dropsReferences : DropsReferences w where
  close := fun _ _ => h.drops_close
  release := fun _ _ => h.drops_release
  drop := fun _ _ => h.drops_drop
  delete := fun _ _ => h.drops_delete

end Drops

/-- **Shares are reference counted.**  Whatever calls the handlers have made, the counts
and the lists are right; the next call that drops a reference counts one less or frees the
share; and no next call follows a pointer to freed memory. -/
theorem shares_reference_counted [DecidableEq N] (h : w.Reach) :
    ReferenceCounted w ∧ DropsReferences w ∧ ∀ t (a : HaCall N κ), a.run
      (w.clients t) w.reg ≠ .fault := by
  refine ⟨h.ok.referenceCounted, h.ok.dropsReferences, ?_⟩
  intro t a hfault
  rcases h.ok.proceeds t a with hnot | ⟨c, r, hdone, -⟩
  · rw [hnot] at hfault
    cases hfault
  · rw [hdone] at hfault
    cases hfault

/-- One handler has pinned a new share and another has opened it.  The table is deleted, both
close, and the share is freed.  The table is created and opened again. -/
theorem shares_reference_counted_after_delete :
    ∃ w : Engine Nat Unit, w.Reach ∧ w.reg.fmShareList = [1] ∧ w.reg.freed = [0] ∧
    w.opens 3 = some 1 ∧
      ReferenceCounted w ∧ DropsReferences w ∧ ∀ t (a : HaCall Nat Unit), a.run
        (w.clients t) w.reg ≠ .fault := by
  have h₀ : Engine.Reach (Engine.start Nat Unit) := .start
  have h₁ : Engine.Reach _ := .step h₀ (.call (t := 0) (a := .openTable 5 false true) rfl)
  have h₂ : Engine.Reach _ := .step h₁ (.call (t := 0) (a := .createShare (some ())) rfl)
  have h₃ : Engine.Reach _ := .step h₂ (.call (t := 1) (a := .openTable 5 false true) rfl)
  have h₄ : Engine.Reach _ := .step h₃ (.call (t := 0) (a := .openShare true) rfl)
  have h₅ : Engine.Reach _ := .step h₄ (.call (t := 2) (a := .deleteTable 5) rfl)
  have h₆ : Engine.Reach _ := .step h₅ (.call (t := 0) (a := .close) rfl)
  have h₇ : Engine.Reach _ := .step h₆ (.call (t := 1) (a := .close) rfl)
  have h₈ : Engine.Reach _ := .step h₇ (.call (t := 2) (a := .createTable 5 (some ())) rfl)
  have h₉ : Engine.Reach _ := .step h₈ (.call (t := 3) (a := .openTable 5 false true) rfl)
  exact ⟨_, h₉, rfl, rfl, rfl, shares_reference_counted h₉⟩

end FastMem
