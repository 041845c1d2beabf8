import FastMem.Clients
import FastMem.SeqCalls

/-!
# Opening a table and its rows

Handlers open one table, insert rows into it and close it, in any order.  A handler that
has found no share creates one, and by then another handler may have created the share,
filled it and closed it: `fm_create` frees it.  A handler that has pinned the share and
gets no memory for its handle frees it too, if no one else refers to it by then.  Short
of that, no row is lost.
-/

namespace FastMem

open Conc Versioned

variable {N : Type} {n : Nat} {W PK : Type}

/-- The server, and the rows that have been inserted: slot and image. -/
structure RowWorld (N : Type) (n : Nat) (W : Type) where
  world : Engine N (Share n W)
  inserted : List (Int × Image n W)

/-- The calls of `open` and `close` of a table that is not internal. -/
def HaCall.opens (name : N) : HaCall N (Share n W) → Prop
  | .openTable name' internal _ => name' = name ∧ internal = false
  | .createShare fresh => ∀ core, fresh = some core → ∃ data, core = Share.fresh data
  | .prepareFails | .openShare _ | .releaseShare | .close => True
  | _ => False

/-- The rows inserted so far, after an insert that has returned `r`. -/
def logRow (r : WriteResult) (rec : Image n W) (rows : List (Int × Image n W)) :
    List (Int × Image n W) :=
  match r.rc, r.outIdx with
  | .ok, some idx => (idx, rec) :: rows
  | _, _ => rows

section Steps

variable [DecidableEq N] [DecidableEq (Image n W)]

/-- A handler makes a call, or inserts a row through its handle.  `fm_core_insert_row`
holds `struct_mutex` throughout, so that inserts are one after the other. -/
inductive RowWorld.Step (cfg : ShareCfg n W PK) (name : N)
    (allowed : Engine N (Share n W) → Nat → HaCall N (Share n W) → Prop) (w : RowWorld N n W) :
    RowWorld N n W → Prop
  | call {t : Nat} {a : HaCall N (Share n W)} {w' : Engine N (Share n W)} (hopens : a.opens name)
      (hallowed : allowed w.world t a) (hstep : w.world.Step t a w') : Step cfg name allowed
        w ⟨w', w.inserted⟩
  | insert {t i : Nat} {info : OpenInfo} {share : FmShare N (Share n W)} {rec scratch : Image n W}
      {r : WriteResult} {core : Share n W} {w' : Engine N (Share n W)}
      (hstage : (w.world.clients t).stage = .opened i) (hinfo : w.world.reg.infos i = some info)
      (hshare : w.world.reg.shares info.s = some share)
      (hruns : (machine cfg).Runs t (insertRow cfg rec scratch) share.core r core)
      (hstep : w.world.Step t (.rows core) w') : Step cfg name allowed w ⟨w',
        logRow r rec w.inserted⟩

/-- The table does not exist yet, or `CREATE TABLE` has just made it. -/
inductive Initial (name : N) : Engine N (Share n W) → Prop
  | none : Initial name (.start N (Share n W))
  | created {t : Nat} {data : Int → Image n W} {w : Engine N (Share n W)}
      (hstep : (Engine.start N (Share n W)).Step t (.createTable name (some (Share.fresh data)))
        w) : Initial name w

/-- The states that any handlers of the table lead to, in any order of allowed calls. -/
inductive RowWorld.Reach (cfg : ShareCfg n W PK) (name : N)
    (allowed : Engine N (Share n W) → Nat → HaCall N (Share n W) → Prop) : RowWorld N n W → Prop
  | start {w : Engine N (Share n W)} (h : Initial name w) : Reach cfg name allowed ⟨w, []⟩
  | step {w w' : RowWorld N n W} (h : Reach cfg name allowed w)
    (hstep : w.Step cfg name allowed w') :
      Reach cfg name allowed w'

/-- The call frees a share that has rows: `fm_create` finds it with no reference, or
`fm_release_share` drops the last one. -/
def DiscardsRows (w : Engine N (Share n W)) (t : Nat) : HaCall N (Share n W) → Prop
  | .createShare _ => ∃ name sh share i, (w.clients t).stage = .noEntry name ∧
      fmFindNamedShare w.reg name = some (some sh) ∧ w.reg.shares sh = some share ∧
      share.openCount = 0 ∧ share.core.state i = .active
  | .releaseShare => ∃ sh share i, (w.clients t).stage = .noHandle sh ∧
    w.reg.shares sh = some share ∧
      share.openCount = 1 ∧ share.core.state i = .active
  | _ => False

end Steps

/-- All handles that are open refer to one share, and every row that was inserted is
there, each in a slot of its own. -/
structure KeepsRows (w : RowWorld N n W) : Prop where
  sameShare : ∀ i j info info', w.world.reg.infos i = some info → w.world.reg.infos j = some info' →
    info.s = info'.s
  present : ∀ i info share, w.world.reg.infos i = some info →
    w.world.reg.shares info.s = some share →
    ∀ row ∈ w.inserted, share.core.state row.1 = .active ∧ share.core.data row.1 = row.2
  distinct : (w.inserted.map Prod.fst).Nodup

/-- What opening and closing do not change of a share. -/
def FmShare.body {κ : Type} (share : FmShare N κ) : N × κ × Bool × Bool :=
  (share.name, share.core, share.deleteOnClose, share.internal)

/-- The same of all shares. -/
def Registry.bodies {κ : Type} (r : Registry N κ) (sh : Nat) : Option (N × κ × Bool × Bool) :=
  (r.shares sh).map FmShare.body

section Bodies

variable {κ : Type} {r r' : Registry N κ} {sh i : Nat} {share share' : FmShare N κ}
  {info : OpenInfo} {pin : Nat → Option Nat}

/-- A share rewritten but for its handles keeps its rows. -/
theorem bodies_put (hsh : r.shares sh = some share) (hbody : share'.body = share.body) :
    (r.put sh share').bodies = r.bodies := by
  funext x
  by_cases hx : x = sh
  · subst hx
    simp [Registry.bodies, hsh, hbody]
  · simp [Registry.bodies, hx]

/-- A new handle keeps the rows. -/
theorem bodies_registered (hsh : r.shares sh = some share) (hbody : share'.body = share.body) :
    (r.registered sh share').bodies = r.bodies := bodies_put hsh hbody

/-- The rows of a freed share are gone. -/
theorem bodies_without : (r.without sh).bodies = Function.update r.bodies sh none := by
  funext x
  by_cases hx : x = sh
  · subst hx
    simp [Registry.bodies, Registry.without]
  · simp [Registry.bodies, Registry.without, hx]

/-- A new share has the rows it was made with. -/
theorem bodies_addShare {name : N} {core : κ} : (addShare r name false core).bodies
    = Function.update r.bodies r.nextShare (some (name, core, false, false)) := by
  funext x
  rw [Registry.bodies, shares_addShare]
  by_cases hx : x = r.nextShare
  · subst hx
    simp [FmShare.body]
  · simp [Registry.bodies, hx]

/-- A close keeps the rows unless the table is to be deleted. -/
theorem bodies_close (h : Counting r pin) (hi : r.infos i = some info)
    (hsh : r.shares info.s = some share) (hdel : share.deleteOnClose = false)
    (heq : fmClose r i = some r') : r'.bodies = r.bodies := by
  obtain ⟨list, -, -, heq'⟩ := fmClose_eq h hi hsh
  rw [heq, hdel] at heq'
  simp only [Bool.false_eq_true, and_false, if_false, Option.some.injEq] at heq'
  rw [heq']
  exact bodies_put (r := r) hsh rfl

/-- A release keeps the rows unless the reference was the last. -/
theorem bodies_release (h : Counting r pin) (hsh : r.shares sh = some share)
    (heq : fmReleaseShare r sh false = some r') :
    r'.bodies = r.bodies ∨ share.openCount ≤ 1 ∧ r'.bodies = Function.update r.bodies sh none := by
  rw [fmReleaseShare_eq h hsh] at heq
  obtain rfl := Option.some.inj heq
  have hput : (r.put sh share.decr).bodies = r.bodies := bodies_put hsh rfl
  by_cases hlast : share.openCount - 1 = 0
  · rw [if_pos hlast, bodies_without, hput]
    exact Or.inr ⟨by omega, rfl⟩
  · rw [if_neg hlast]
    exact Or.inl hput

variable [DecidableEq N]

/-- An open keeps the rows. -/
theorem bodies_open {name : N} {alloc : Bool} {res : Except OpenError Nat} (h : Listing r)
    (heq : fmOpen r name alloc = some (res, r')) : r'.bodies = r.bodies := by
  obtain ⟨found, hfind, hfound⟩ := fmFindNamedShare_spec h name
  cases found with
  | none =>
      rw [fmOpen_noEntry hfind] at heq
      cases heq
      rfl
  | some sh =>
      obtain ⟨share, hsh, -, -⟩ := hfound
      cases alloc with
      | false =>
          rw [fmOpen_noMem hfind hsh] at heq
          cases heq
          rfl
      | true =>
          rw [fmOpen_eq hfind hsh] at heq
          cases heq
          exact bodies_registered hsh rfl

omit [DecidableEq N] in
theorem bodies_openShare {alloc : Bool} {res : Option Nat} (hsh : r.shares sh = some share)
    (heq : fmOpenFromShareAndRegister r sh alloc = some (res, r')) : r'.bodies = r.bodies := by
  cases alloc with
  | false =>
      rw [fmOpenFromShareAndRegister_noMem hsh] at heq
      cases heq
      rfl
  | true =>
      rw [fmOpenFromShareAndRegister_eq hsh] at heq
      cases heq
      exact bodies_registered hsh rfl

end Bodies

/-- One share at most, registered under the name of the table, with every row that was
inserted. -/
structure TableOk (cfg : ShareCfg n W PK) (name : N) (inserted : List (Int × Image n W))
    (r : Registry N (Share n W)) : Prop where
  share : ∀ sh b, r.bodies sh = some b → b.1 = name ∧ b.2.2 = (false, false) ∧
    (∃ F, Ledger cfg cfg.maxRecords b.2.1 F ∅) ∧ ∀ row ∈ inserted,
    b.2.1.table.row row.1 = some row.2
  unique : ∀ sh sh', r.bodies sh ≠ none → r.bodies sh' ≠ none → sh = sh'
  held : inserted ≠ [] → ∃ sh, r.bodies sh ≠ none
  distinct : (inserted.map Prod.fst).Nodup

section TableOk

variable {cfg : ShareCfg n W PK} {name : N} {inserted : List (Int × Image n W)}
  {r r' : Registry N (Share n W)} {sh k : Nat} {share : FmShare N (Share n W)}

/-- The rows of a share that is there. -/
theorem bodies_of_shares (hsh : r.shares sh = some share) : r.bodies sh = some share.body := by
  simp [Registry.bodies, hsh]

/-- The table is in order if the rows are the same. -/
theorem TableOk.congr (h : TableOk cfg name inserted r) (hbodies : r'.bodies = r.bodies) :
    TableOk cfg name inserted r' where
  share := by
    rw [hbodies]
    exact h.share
  unique := by
    rw [hbodies]
    exact h.unique
  held := by
    rw [hbodies]
    exact h.held
  distinct := h.distinct

/-- A share without rows is freed: no row has been inserted, and there is no other share. -/
theorem TableOk.remove (h : TableOk cfg name inserted r) (hsh : r.shares sh = some share)
    (hempty : ∀ i, share.core.state i ≠ .active)
    (hbodies : r'.bodies = Function.update r.bodies sh none) :
    (∀ x, r'.bodies x = none) ∧ TableOk cfg name inserted r' := by
  have hnone : ∀ x, r'.bodies x = none := by
    intro x
    rw [hbodies]
    by_cases hx : x = sh
    · rw [hx, Function.update_self]
    · rw [Function.update_of_ne hx]
      by_contra hne
      exact hx (h.unique x sh hne (by simp [bodies_of_shares hsh]))
  have hno : inserted = [] := by
    cases hins : inserted with
    | nil => rfl
    | cons row rows =>
        have hrow := (h.share sh _ (bodies_of_shares hsh)).2.2.2 row (by simp [hins])
        simp [Share.table, FmShare.body, hempty] at hrow
  refine ⟨hnone, ?_, ?_, ?_, h.distinct⟩
  · intro x b hb
    rw [hnone x] at hb
    cases hb
  · intro x _ hx
    exact absurd (hnone x) hx
  · exact fun hne => absurd hno hne

/-- Where there is no share, a fresh one is created. -/
theorem TableOk.create (h : TableOk cfg name inserted r) (hnone : ∀ x, r.bodies x = none)
    {data : Int → Image n W}
    (hbodies : r'.bodies = Function.update r.bodies k
      (some (name, Share.fresh data, false, false))) :
    TableOk cfg name inserted r' := by
  have hno : inserted = [] := by
    by_contra hne
    obtain ⟨x, hx⟩ := h.held hne
    exact hx (hnone x)
  have honly : ∀ x, r'.bodies x ≠ none → x = k := by
    intro x hx
    by_contra hne
    rw [hbodies, Function.update_of_ne hne] at hx
    exact hx (hnone x)
  refine ⟨?_, ?_, fun hne => absurd hno hne, h.distinct⟩
  · intro x b hb
    obtain rfl := honly x (by simp [hb])
    rw [hbodies, Function.update_self] at hb
    obtain rfl := Option.some.inj hb
    exact ⟨rfl, rfl, ⟨[], ledger_fresh cfg _ data⟩, by simp [hno]⟩
  · intro x y hx hy
    rw [honly x hx, honly y hy]

/-- An insert keeps the rows that are there, and logs its own. -/
theorem rows_insertRow [DecidableEq (Image n W)] {t : Nat} {rec scratch : Image n W}
    {res : WriteResult} {s s' : Share n W} {F : List Int}
    (hledger : Ledger cfg cfg.maxRecords s F ∅)
    (hrows : ∀ row ∈ inserted, s.table.row row.1 = some row.2)
    (hdistinct : (inserted.map Prod.fst).Nodup)
    (hruns : (machine cfg).Runs t (insertRow cfg rec scratch) s res s') :
    (∃ F', Ledger cfg cfg.maxRecords s' F' ∅) ∧
      (∀ row ∈ logRow res rec inserted, s'.table.row row.1 = some row.2) ∧
      ((logRow res rec inserted).map Prod.fst).Nodup := by
  obtain ⟨F', hledger', hcase⟩ := insertRow_effect hledger le_rfl hruns
  refine ⟨⟨F', hledger'⟩, ?_⟩
  have hnot : res.outIdx = none → Grows s.table s'.table →
      (∀ row ∈ logRow res rec inserted, s'.table.row row.1 = some row.2) ∧
        ((logRow res rec inserted).map Prod.fst).Nodup := by
    intro hout hgrows
    have hlog : logRow res rec inserted = inserted := by simp [logRow, hout]
    rw [hlog, hgrows.row]
    exact ⟨hrows, hdistinct⟩
  rcases hcase with ⟨idx, rfl, hidx, hgrows⟩ | ⟨-, hout, hgrows⟩ | ⟨hres, -, -, hgrows⟩
  · -- the slot was empty, so it is none of those logged before
    have hne : ∀ row ∈ inserted, row.1 ≠ idx := by
      intro row hrow heq
      have hold := hrows row hrow
      rw [heq, hidx] at hold
      cases hold
    constructor
    · intro row hrow
      rw [hgrows.row]
      rcases List.mem_cons.mp hrow with rfl | hrow
      · simp [Table.after]
      · simpa [Table.after, hne row hrow] using hrows row hrow
    · apply List.Nodup.cons _ hdistinct
      intro hmem
      obtain ⟨row, hrow, heq⟩ := List.mem_map.mp hmem
      exact hne row hrow heq
  · exact hnot hout hgrows
  · exact hnot (by rw [hres]) hgrows

/-- A row is inserted into the share of the table, which is the only one. -/
theorem TableOk.insert [DecidableEq (Image n W)] {t : Nat} {rec scratch : Image n W}
    {res : WriteResult} {core : Share n W} (h : TableOk cfg name inserted r)
    (hsh : r.shares sh = some share)
    (hruns : (machine cfg).Runs t (insertRow cfg rec scratch) share.core res core) :
    TableOk cfg name (logRow res rec inserted) (r.put sh { share with core := core }) := by
  obtain ⟨hname, hflags, ⟨F, hledger⟩, hrows⟩ := h.share sh _ (bodies_of_shares hsh)
  obtain ⟨hledger', hrows', hdistinct⟩ := rows_insertRow hledger hrows h.distinct hruns
  have honly : ∀ x, (r.put sh { share with core := core }).bodies x ≠ none → x = sh := by
    intro x hx
    by_contra hne
    have hold : (r.put sh { share with core := core }).bodies x = r.bodies x := by
      simp [Registry.bodies, hne]
    exact hne (h.unique x sh (hold ▸ hx) (by simp [bodies_of_shares hsh]))
  have hself : (r.put sh { share with core := core }).bodies sh =
    some { share with core := core }.body := by
    simp [Registry.bodies]
  refine ⟨?_, ?_, fun _ => ⟨sh, by simp [hself]⟩, hdistinct⟩
  · intro x b hb
    obtain rfl := honly x (by simp [hb])
    rw [hself] at hb
    obtain rfl := Option.some.inj hb
    exact ⟨hname, hflags, hledger', hrows'⟩
  · intro x y hx hy
    rw [honly x hx, honly y hy]

variable [DecidableEq N]

/-- The lookup of `fm_create` finds the share, or there is none afterwards. -/
theorem discardUnreferenced_table (h : TableOk cfg name inserted r) (hlisting : Listing r)
    (hkeep : ∀ sh share i, fmFindNamedShare r name = some (some sh) → r.shares sh = some share →
      share.openCount = 0 → share.core.state i ≠ .active) :
    ∃ found r₁, discardUnreferenced r name = some (found, r₁) ∧ TableOk cfg name inserted r₁ ∧
      (found = none → ∀ x, r₁.bodies x = none) ∧ ∀ sh, found = some sh → ∃ share,
      r₁.shares sh = some share := by
  obtain ⟨found, hfind, hfound⟩ := fmFindNamedShare_spec hlisting name
  cases found with
  | none =>
      refine ⟨none, r, by simp [discardUnreferenced, hfind], h, fun _ x => ?_, by simp⟩
      by_contra hne
      obtain ⟨share, hsh⟩ : ∃ share, r.shares x = some share := by
        rw [Registry.bodies] at hne
        exact Option.ne_none_iff_exists'.mp fun hnone => hne (by simp [hnone])
      obtain ⟨hname, hflags, -⟩ := h.share x _ (bodies_of_shares hsh)
      exact hfound x share hsh (congrArg Prod.snd hflags) hname
  | some sh =>
      obtain ⟨share, hsh, -, -⟩ := hfound
      by_cases hzero : share.openCount = 0
      · obtain ⟨hnone, hok⟩ :=
          h.remove hsh (fun i => hkeep sh share i hfind hsh hzero) bodies_without
        exact ⟨none,
          r.without sh, by
            simp [discardUnreferenced, hfind, hsh, hzero, fmFree_eq hlisting hsh], hok,
          fun _ => hnone, by simp⟩
      · refine ⟨some sh, r, by simp [discardUnreferenced, hfind, hsh, hzero], h, by simp, ?_⟩
        intro x hx
        obtain rfl := Option.some.inj hx
        exact ⟨share, hsh⟩

/-- `fm_create` in `open`. -/
theorem TableOk.fmCreate {fresh : Option (Share n W)} {res : Option (Nat × Bool)}
    (h : TableOk cfg name inserted r) (hlisting : Listing r)
    (hfresh : ∀ core, fresh = some core → ∃ data, core = Share.fresh data)
    (hkeep : ∀ sh share i, fmFindNamedShare r name = some (some sh) → r.shares sh = some share →
      share.openCount = 0 → share.core.state i ≠ .active)
    (heq : fmCreate r name false true fresh = some (res, r')) : TableOk cfg name inserted r' := by
  obtain ⟨found, r₁, hdiscard, hok, hnone, hsome⟩ := discardUnreferenced_table h hlisting hkeep
  cases found with
  | some sh =>
      obtain ⟨share, hsh⟩ := hsome sh rfl
      simp [FastMem.fmCreate, hdiscard, pinned, modify_live hsh] at heq
      rw [← heq.2]
      exact hok.congr (bodies_put hsh rfl)
  | none =>
      cases hf : fresh with
      | none =>
          simp [FastMem.fmCreate, hdiscard, hf] at heq
          rw [← heq.2]
          exact hok
      | some core =>
          obtain ⟨data, rfl⟩ := hfresh core hf
          have hsh : (addShare r₁ name false (Share.fresh data)).shares r₁.nextShare
              = some ⟨name, Share.fresh data, 0, false, false, []⟩ := by
            rw [shares_addShare, Function.update_self]
          simp [FastMem.fmCreate, hdiscard, hf, pinned, modify_live hsh] at heq
          rw [← heq.2]
          have hadd : (addShare r₁ name false (Share.fresh data)).bodies =
              Function.update r₁.bodies r₁.nextShare
              (some (name, Share.fresh data, false, false)) := bodies_addShare
          exact (hok.create (hnone rfl) hadd).congr (bodies_put hsh rfl)

end TableOk

/-- A call that is done has run to its end. -/
theorem Outcome.of_eq_done {κ α : Type} {x : Option (α × Registry N κ)}
    {f : α → Client N} {c : Client N} {r : Registry N κ}
    (h : Outcome.of x f = .done c r) : ∃ a, x = some (a, r) ∧ f a = c := by
  cases x with
  | none => cases h
  | some p =>
      cases h
      exact ⟨p.1, rfl, rfl⟩

theorem Outcome.after_eq_done {κ : Type} {x : Option (Registry N κ)} {c c' : Client N}
    {r : Registry N κ} (h : Outcome.after x c' = .done c r) : x = some r ∧ c' = c := by
  obtain ⟨_, hx, hc⟩ := Outcome.of_eq_done h
  obtain ⟨r', hr', heq⟩ := Option.map_eq_some_iff.mp hx
  obtain rfl := (Prod.mk.inj heq).2
  exact ⟨hr', hc⟩

/-- A handler of the table. -/
structure OpensTable (name : N) (c : Client N) : Prop where
  external : c.internalTable = false
  named : ∀ name', c.stage = .noEntry name' → name' = name

/-- The clients still open the one table. -/
theorem OpensTable.update {name : N} {clients : Nat → Client N} {t : Nat} {c : Client N}
    (h : ∀ x, OpensTable name (clients x)) (hc : OpensTable name c) (x : Nat) :
    OpensTable name (Function.update clients t c x) := by
  by_cases hx : x = t
  · subst hx
    rw [Function.update_self]
    exact hc
  · rw [Function.update_of_ne hx]
    exact h x

section Runs

variable [DecidableEq N] {cfg : ShareCfg n W PK} {name : N} {inserted : List (Int × Image n W)}
  {w : Engine N (Share n W)} {t : Nat} {c : Client N} {r : Registry N (Share n W)}

omit [DecidableEq N] in
/-- The handles of a table refer to its share, which is not to be deleted. -/
theorem TableOk.handle (h : TableOk cfg name inserted w.reg) (hok : w.Ok) {i : Nat}
    (hfile : (w.clients t).file = some i) :
    ∃ info share, w.reg.infos i = some info ∧ w.reg.shares info.s = some share ∧
    share.deleteOnClose = false := by
  obtain ⟨info, share, hinfo, hsh, -⟩ := hok.handle hfile
  have hflags := (h.share _ _ (bodies_of_shares hsh)).2.1
  exact ⟨info, share, hinfo, hsh, congrArg Prod.fst hflags⟩

omit [DecidableEq N] in
/-- A close keeps the rows of the table. -/
theorem TableOk.close (h : TableOk cfg name inserted w.reg) (hok : w.Ok) {i : Nat}
    (hfile : (w.clients t).file = some i) (heq : fmClose w.reg i = some r) :
    TableOk cfg name inserted r := by
  obtain ⟨info, share, hinfo, hsh, hdel⟩ := h.handle hok hfile
  exact h.congr (bodies_close hok.registry.toCounting hinfo hsh hdel heq)

/-- A call of `open` or `close` that frees no rows. -/
theorem TableOk.call {a : HaCall N (Share n W)} (h : TableOk cfg name inserted w.reg) (hok : w.Ok)
    (hc : OpensTable name (w.clients t)) (hopens : a.opens name) (hkeep : ¬ DiscardsRows w t a)
    (hrun : a.run (w.clients t) w.reg = .done c r) :
    OpensTable name c ∧ TableOk cfg name inserted r := by
  have hint := hc.external
  cases a with
  | openTable name' internal alloc =>
      obtain ⟨rfl, rfl⟩ := hopens
      cases hs : (w.clients t).stage with
      | idle =>
          rw [HaCall.run_at hs] at hrun
          obtain ⟨res, heq, rfl⟩ := Outcome.of_eq_done hrun
          refine ⟨⟨rfl, ?_⟩, h.congr (bodies_open hok.registry.toListing heq)⟩
          intro name'' hname
          cases res with
          | ok i => cases hname
          | error e =>
              cases e with
              | noEntry => exact (Stage.noEntry.inj hname).symm
              | noMem => cases hname
      | _ => cases (HaCall.run_at hs).symm.trans hrun
  | prepareFails =>
      cases hs : (w.clients t).stage with
      | noEntry name' =>
          rw [HaCall.run_at hs] at hrun
          cases hrun
          exact ⟨⟨hint, by simp⟩, h⟩
      | _ => cases (HaCall.run_at hs).symm.trans hrun
  | createShare fresh =>
      cases hs : (w.clients t).stage with
      | noEntry name' =>
          obtain rfl := hc.named name' hs
          rw [HaCall.run_as hs hint] at hrun
          obtain ⟨res, heq, rfl⟩ := Outcome.of_eq_done hrun
          refine ⟨⟨rfl, ?_⟩, h.fmCreate hok.registry.toListing hopens ?_ heq⟩
          · intro name'' hname
            cases res <;> cases hname
          · intro sh share i hfind hsh hzero hactive
            exact hkeep ⟨name', sh, share, i, hs, hfind, hsh, hzero, hactive⟩
      | _ => cases (HaCall.run_at hs).symm.trans hrun
  | openShare alloc =>
      cases hs : (w.clients t).stage with
      | created sh =>
          have hpin : w.pins t = some sh := by simp [Engine.pins, Client.pin, hs, hint]
          obtain ⟨share, hsh⟩ := shares_of_live (hok.registry.pin_live t sh hpin)
          rw [HaCall.run_as hs hint] at hrun
          obtain ⟨res, heq, rfl⟩ := Outcome.of_eq_done hrun
          refine ⟨⟨rfl, ?_⟩, h.congr (bodies_openShare hsh heq)⟩
          intro name'' hname
          cases res <;> cases hname
      | _ => cases (HaCall.run_at hs).symm.trans hrun
  | releaseShare =>
      cases hs : (w.clients t).stage with
      | noHandle sh =>
          have hpin : w.pins t = some sh := by simp [Engine.pins, Client.pin, hs, hint]
          obtain ⟨share, hsh⟩ := shares_of_live (hok.registry.pin_live t sh hpin)
          have hcount := hok.registry.count sh share hsh
          have hpos := RefCount.count_pos hok.registry.pins_finite hpin
          rw [HaCall.run_as hs hint] at hrun
          obtain ⟨heq, rfl⟩ := Outcome.after_eq_done hrun
          refine ⟨⟨rfl, by simp⟩, ?_⟩
          rcases bodies_release hok.registry.toCounting hsh heq with hsame | ⟨hlast, hgone⟩
          · exact h.congr hsame
          · refine (h.remove hsh ?_ hgone).2
            intro i hactive
            exact hkeep ⟨sh, share, i, hs, hsh, by omega, hactive⟩
      | _ => cases (HaCall.run_at hs).symm.trans hrun
  | close =>
      cases hs : (w.clients t).stage with
      | opened i =>
          rw [HaCall.run_at hs] at hrun
          obtain ⟨heq, rfl⟩ := Outcome.after_eq_done hrun
          exact ⟨⟨hint, by simp⟩, h.close hok (t := t) (by simp [Client.file, hs]) heq⟩
      | dropping i =>
          rw [HaCall.run_at hs] at hrun
          obtain ⟨heq, rfl⟩ := Outcome.after_eq_done hrun
          exact ⟨⟨hint, by simp⟩, h.close hok (t := t) (by simp [Client.file, hs]) heq⟩
      | _ => cases (HaCall.run_at hs).symm.trans hrun
  | _ => cases hopens

/-- What holds in every state of a run that frees no rows. -/
structure RowWorld.Ok (cfg : ShareCfg n W PK) (name : N) (w : RowWorld N n W) : Prop where
  world : w.world.Ok
  table : TableOk cfg name w.inserted w.world.reg
  clients : ∀ t, OpensTable name (w.world.clients t)

omit [DecidableEq N] in
/-- Nothing has been inserted at the start. -/
theorem RowWorld.ok_start (cfg : ShareCfg n W PK) (name : N) :
    RowWorld.Ok cfg name (⟨.start N (Share n W), []⟩ : RowWorld N n W) where
  world := Engine.ok_start N (Share n W)
  table :=
    { share := by simp [Engine.start, Registry.empty, Registry.bodies]
      unique := by simp [Engine.start, Registry.empty, Registry.bodies]
      held := by simp
      distinct := List.nodup_nil }
  clients := by
    intro t
    exact ⟨rfl, by simp [Engine.start, Client.new]⟩

variable [DecidableEq (Image n W)]

omit [DecidableEq (Image n W)] in
theorem RowWorld.ok_initial {w : Engine N (Share n W)} (h : Initial name w) :
    RowWorld.Ok cfg name (⟨w, []⟩ : RowWorld N n W) := by
  have hstart := RowWorld.ok_start (n := n) (W := W) cfg name
  cases h with
  | none => exact hstart
  | @created t data _ hstep =>
      have hworld := hstart.world.step hstep
      cases hstep with
      | @call c r hrun =>
          have hrun : Outcome.of
              (fmCreate (.empty N (Share n W)) name false false (some (Share.fresh data)))
              (fun _ => Client.new N) = .done c r := hrun
          obtain ⟨res, heq, rfl⟩ := Outcome.of_eq_done hrun
          have hcreate : fmCreate (.empty N (Share n W)) name false false (some (Share.fresh data))
              = some (some (0, true),
                addShare (.empty N (Share n W)) name false (Share.fresh data)) := rfl
          rw [hcreate] at heq
          obtain rfl := (Prod.mk.inj (Option.some.inj heq)).2
          have hadd : (addShare (.empty N (Share n W)) name false (Share.fresh data)).bodies
              = Function.update (Registry.empty N (Share n W)).bodies 0
                (some (name, Share.fresh data, false, false)) := bodies_addShare
          refine ⟨hworld, hstart.table.create (fun _ => rfl) hadd, ?_⟩
          intro x
          have hsame : Function.update (Engine.start N (Share n W)).clients t (.new N) x =
              .new N := by
            by_cases hx : x = t
            · rw [hx, Function.update_self]
            · rw [Function.update_of_ne hx]
              rfl
          simp only [hsame]
          exact ⟨rfl, by simp [Client.new]⟩

/-- Every call that discards no rows keeps them. -/
theorem RowWorld.Ok.step {w w' : RowWorld N n W} (h : w.Ok cfg name)
    (hstep : w.Step cfg name (fun w t a => ¬ DiscardsRows w t a) w') : w'.Ok cfg name := by
  cases hstep with
  | @call t a _ hopens hallowed hstep =>
      have hworld := h.world.step hstep
      cases hstep with
      | call hrun =>
          obtain ⟨hc, htable⟩ := h.table.call h.world (h.clients t) hopens hallowed hrun
          exact ⟨hworld, htable, .update h.clients hc⟩
  | @insert t i info share rec scratch res core _ hstage hinfo hshare hruns hstep =>
      have hworld := h.world.step hstep
      cases hstep with
      | call hrun =>
          rw [HaCall.run_at hstage] at hrun
          obtain ⟨heq, rfl⟩ := Outcome.after_eq_done hrun
          simp only [throughHandle, hinfo, modify_live hshare, Option.bind_eq_bind,
            Option.bind_some, Option.some.injEq] at heq
          refine ⟨hworld, ?_, ?_⟩
          · rw [← heq]
            exact h.table.insert hshare hruns
          · apply OpensTable.update h.clients
            exact ⟨(h.clients t).external, by simp⟩

/-- The rows are kept in every reachable state. -/
theorem RowWorld.Reach.ok {w : RowWorld N n W}
    (h : w.Reach cfg name fun w t a => ¬ DiscardsRows w t a) : w.Ok cfg name := by
  induction h with
  | start h => exact RowWorld.ok_initial h
  | step _ hstep ih => exact ih.step hstep

omit [DecidableEq N] [DecidableEq (Image n W)] in
/-- A share that is there is the share of every handle. -/
theorem RowWorld.Ok.keepsRows {w : RowWorld N n W} (h : w.Ok cfg name) : KeepsRows w where
  sameShare := by
    intro i j info info' hi hj
    have hlive : ∀ k x, w.world.reg.infos k = some x → w.world.reg.bodies x.s ≠ none := by
      intro k x hk
      have hhandle : w.world.reg.handles k = some x.s := by simp [Registry.handles, hk]
      obtain ⟨share, hsh⟩ := shares_of_live (h.world.registry.handle_live k _ hhandle)
      simp [bodies_of_shares hsh]
    exact h.table.unique _ _ (hlive i info hi) (hlive j info' hj)
  present := by
    intro i info share hi hsh row hrow
    have hthere := (h.table.share _ _ (bodies_of_shares hsh)).2.2.2 row hrow
    by_cases hactive : share.core.state row.1 = .active
    · refine ⟨hactive, ?_⟩
      simpa [Share.table, FmShare.body, hactive] using hthere
    · simp [Share.table, FmShare.body, hactive] at hthere
  distinct := h.table.distinct

/-- **Opening a table loses no row** as long as no call of `open` frees a share that has
rows. -/
theorem rows_survive_opens {w : RowWorld N n W}
    (h : w.Reach cfg name fun w t a => ¬ DiscardsRows w t a) : KeepsRows w :=
  h.ok.keepsRows

end Runs

/-- Handler 1 inserts a row into a new share. -/
theorem insert_into_fresh : ∃ core, (machine (wordTable 1)).Runs 1
    (insertRow (wordTable 1) (fun _ => 7) fun _ => 0)
    (Share.fresh fun _ _ => 0) ⟨.ok, some 0, none⟩ core := by
  have heval : ((machine (wordTable 1)).eval 1 20000
      (insertRow (wordTable 1) (fun _ => 7) fun _ => 0)
      (Share.fresh fun _ _ => 0)).any (fun p => p.1 = ⟨.ok, some 0, none⟩) = true := by
    decide +kernel
  obtain ⟨⟨res, core⟩, hrun, hres⟩ := (Option.any_eq_true _ _).mp heval
  obtain rfl : res = ⟨.ok, some 0, none⟩ := of_decide_eq_true hres
  exact ⟨core, .of_eval hrun⟩

/-- The creation of a share is part of an open. -/
theorem opens_createShare : HaCall.opens (N := Nat) 5
    (.createShare (some (Share.fresh fun _ (_ : Fin 1) => 0))) := by
  intro core hcore
  cases hcore
  exact ⟨_, rfl⟩

/-- Where no share is registered, `fm_create` frees none. -/
theorem not_discardsRows_of_nil [DecidableEq N] {w : Engine N (Share n W)} {t : Nat}
    {fresh : Option (Share n W)}
    (hlist : w.reg.fmShareList = []) : ¬ DiscardsRows w t (.createShare fresh) := by
  intro hdiscards
  obtain ⟨name, sh, share, i, -, hfind, -⟩ := hdiscards
  rw [fmFindNamedShare, hlist] at hfind
  cases hfind

/-- A handler finds no share, creates one, inserts a row and closes its handle; then another
handler opens the table, and the row is there. -/
theorem rows_survive_first_insert : ∃ (w : RowWorld Nat 1 Nat) (i : Nat),
    (w.Reach (wordTable 1) 5 fun w t a => ¬ DiscardsRows w t a) ∧ w.inserted = [(0, fun _ => 7)] ∧
      (w.world.clients 1).stage = .idle ∧ (w.world.clients 0).stage = .opened i ∧ KeepsRows w := by
  obtain ⟨core, hruns⟩ := insert_into_fresh
  have h₀ : RowWorld.Reach (wordTable 1) 5 (fun w t a => ¬ DiscardsRows w t a) _ := .start .none
  have h₁ : RowWorld.Reach (wordTable 1) 5 (fun w t a => ¬ DiscardsRows w t a) _ :=
    .step h₀ (.call (t := 1) (a := .openTable 5 false true) ⟨rfl, rfl⟩ id (.call rfl))
  have h₂ : RowWorld.Reach (wordTable 1) 5 (fun w t a => ¬ DiscardsRows w t a) _ :=
    .step h₁ (.call (t := 1) (a := .createShare (some (Share.fresh fun _ _ => 0))) opens_createShare
      (not_discardsRows_of_nil rfl) (.call rfl))
  have h₃ : RowWorld.Reach (wordTable 1) 5 (fun w t a => ¬ DiscardsRows w t a) _ :=
    .step h₂ (.call (t := 1) (a := .openShare true) trivial id (.call rfl))
  have h₄ : RowWorld.Reach (wordTable 1) 5 (fun w t a => ¬ DiscardsRows w t a) _ :=
    .step h₃ (.insert (t := 1) (i := 0) rfl rfl rfl hruns (.call rfl))
  have h₅ : RowWorld.Reach (wordTable 1) 5 (fun w t a => ¬ DiscardsRows w t a) _ :=
    .step h₄ (.call (t := 1) (a := .close) trivial id (.call rfl))
  have h₆ : RowWorld.Reach (wordTable 1) 5 (fun w t a => ¬ DiscardsRows w t a) _ :=
    .step h₅ (.call (t := 0) (a := .openTable 5 false true) ⟨rfl, rfl⟩ id (.call rfl))
  exact ⟨_, _, h₆, rfl, rfl, rfl, rows_survive_opens h₆⟩

/-- Two handlers have found no share.  One of them creates it, inserts a row and closes
its handle; the other then frees that share, creates its own, and has no row. -/
theorem open_discards_row : ¬ ∀ w : RowWorld Nat 1 Nat,
    w.Reach (wordTable 1) 5 (fun _ _ _ => True) → KeepsRows w := by
  intro hall
  obtain ⟨core, hruns⟩ := insert_into_fresh
  have h₀ : RowWorld.Reach (wordTable 1) 5 (fun _ _ _ => True) _ := .start .none
  have h₁ : RowWorld.Reach (wordTable 1) 5 (fun _ _ _ => True) _ :=
    .step h₀ (.call (t := 0) (a := .openTable 5 false true) ⟨rfl, rfl⟩ trivial (.call rfl))
  have h₂ : RowWorld.Reach (wordTable 1) 5 (fun _ _ _ => True) _ :=
    .step h₁ (.call (t := 1) (a := .openTable 5 false true) ⟨rfl, rfl⟩ trivial (.call rfl))
  have h₃ : RowWorld.Reach (wordTable 1) 5 (fun _ _ _ => True) _ :=
    .step h₂ (.call (t := 1) (a := .createShare (some (Share.fresh fun _ _ => 0)))
      opens_createShare trivial (.call rfl))
  have h₄ : RowWorld.Reach (wordTable 1) 5 (fun _ _ _ => True) _ :=
    .step h₃ (.call (t := 1) (a := .openShare true) trivial trivial (.call rfl))
  have h₅ : RowWorld.Reach (wordTable 1) 5 (fun _ _ _ => True) _ :=
    .step h₄ (.insert (t := 1) (i := 0) rfl rfl rfl hruns (.call rfl))
  have h₆ : RowWorld.Reach (wordTable 1) 5 (fun _ _ _ => True) _ :=
    .step h₅ (.call (t := 1) (a := .close) trivial trivial (.call rfl))
  have h₇ : RowWorld.Reach (wordTable 1) 5 (fun _ _ _ => True) _ :=
    .step h₆ (.call (t := 0) (a := .createShare (some (Share.fresh fun _ _ => 0)))
      opens_createShare trivial (.call rfl))
  have h₈ : RowWorld.Reach (wordTable 1) 5 (fun _ _ _ => True) _ :=
    .step h₇ (.call (t := 0) (a := .openShare true) trivial trivial (.call rfl))
  have hrow :=
    (hall _ h₈).present 1 ⟨1, true⟩ _ rfl rfl (0, fun _ => 7) (List.mem_singleton.mpr rfl)
  have hfree : SlotState.free = .active := hrow.1
  cases hfree

end FastMem
