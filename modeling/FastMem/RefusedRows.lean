import FastMem.EditOutcomes
import FastMem.Finds

/-!
# A call that finds its row deleted

A call that names a row by its slot and its generation returns `FM_ERR_DELETED` if it finds that
the slot is not ACTIVE, or that its generation is another one.  It looks at these one after the
other, while other threads delete rows and use their slots again.  Still there is a moment of the
call at which the table of rows has not the row that the call names.
-/

namespace FastMem

open Conc

variable {n : Nat} {W PK : Type}

/-- The row a call that may find its row deleted is made for: the slot, and the generation unless
the call takes any. -/
def CoreOp.names : CoreOp n W PK → Option (Int × Option Nat)
  | .readRow idx cg v _ => some (idx, if cg = true then some v else none)
  | .updateRow idx v .. | .deleteRow idx v _ => some (idx, some v)
  | .updateRowLocked idx v .. | .deleteRowLocked idx v _ => some (idx, some v)
  | .insertRow .. | .clear | .find .. | .findNext .. | .scanNext .. | .lockRow _ | .reread .. |
    .unlockRow _ => none

/-- A call has returned `FM_ERR_DELETED`. -/
def CoreOut.refused : CoreOut n W → Bool
  | .write r => decide (r.rc = .deleted)
  | .code rc | .row rc _ => decide (rc = .deleted)
  | .done | .found .. | .scanned .. => false

section

variable {Op Out α : Type} {T : Setting n W PK Op Out} {w : CoreWorld n W PK Op Out}
  {t m m₀ stop fuel v : Nat} {i : Int} {g : Option Nat}

/-- At some moment from `m` to `m'` slot `i` has no row, or none of generation `g`. -/
def Lacks (mem : Nat → Share n W) (i : Int) (g : Option Nat) (m m' : Nat) : Prop :=
  ∃ j, m ≤ j ∧ j ≤ m' ∧ ((mem j).state i ≠ .active ∨ ∃ v, g = some v ∧ (mem j).gen i ≠ v)

/-- A read that reports the row gone has seen a moment at which it was. -/
theorem yields_readRow_gone (hm : m₀ ≤ m) (cg : Bool) (v : Nat) (buf : Image n W) :
    (machine T.cfg).Yields (w.line stop) t fuel (readRow i cg v buf) m fun r _ =>
      r.1 = .deleted → Lacks w.memAt i (if cg = true then some v else none) m₀ stop := by
  induction fuel using Nat.strong_induction_on generalizing m buf with
  | _ fuel ih =>
  apply Machine.yields_enter
  intro e he
  -- a round that goes on to copy returns an image or goes round again
  have hcopy : ∀ j, m ≤ j →
      (machine T.cfg).Yields (w.line stop) t e (readRowCopy i cg v buf) j fun r _ =>
      r.1 = .deleted → Lacks w.memAt i (if cg = true then some v else none) m₀ stop := by
    intro j hj
    refine yields_load (fun s => s.seq i) (fun _ => rfl) fun j₁ _ _ _ _ => ?_
    refine Machine.Yields.ite (fun _ => ih e he (by omega) buf) fun _ => ?_
    refine Machine.yields_after fun buf' j₂ _ => ?_
    refine yields_load (fun s => s.seq i) (fun _ => rfl) fun j₃ _ _ _ _ => ?_
    exact Machine.Yields.ite (fun _ => ih e he (by omega) buf') fun _ => Machine.yields_ret
      fun hgone => by cases hgone
  show (machine T.cfg).Yields (w.line stop) t e (readRowBody i cg v buf) m _
  unfold readRowBody
  refine yields_load (fun s => s.state i) (fun _ => rfl) fun j _ hle hj _ => ?_
  refine Machine.Yields.ite (fun hstate => Machine.yields_ret fun _ => ?_) fun _ => ?_
  · exact ⟨j, by omega, hj.le, Or.inl hstate⟩
  refine Machine.Yields.ite (fun hcheck => ?_) fun _ => hcopy (j + 1) (by omega)
  refine yields_load (fun s => s.gen i) (fun _ => rfl) fun j₁ _ hle₁ hj₁ _ => ?_
  refine Machine.Yields.ite (fun hgen => Machine.yields_ret fun _ => ?_) fun _ =>
    hcopy (j₁ + 1) (by omega)
  exact ⟨j₁, by omega, hj₁.le, Or.inr ⟨v, if_pos hcheck, hgen⟩⟩

theorem yields_verifySlot (hm : m₀ ≤ m) :
    (machine T.cfg).Yields (w.line stop) t fuel (verifySlot i v) m fun valid _ =>
      valid = false → Lacks w.memAt i (some v) m₀ stop := by
  unfold verifySlot
  refine yields_load (fun s => s.state i) (fun _ => rfl) fun j _ hle hj _ => ?_
  refine Machine.Yields.ite (fun hstate => Machine.yields_ret fun _ => ?_) fun _ => ?_
  · exact ⟨j, by omega, hj.le, Or.inl hstate⟩
  refine yields_load (fun s => s.gen i) (fun _ => rfl) fun j₁ _ hle₁ hj₁ _ =>
    Machine.yields_ret fun hgen => ?_
  exact ⟨j₁, by omega, hj₁.le, Or.inr ⟨v, rfl, of_decide_eq_false hgen⟩⟩

variable {gone : α → Prop}

/-- What a program never returns. -/
theorem yields_never {p : Core n W PK α} {P : Prop}
    (hp : Prog.Returns (S := coreSig n W PK) (fun x => ¬ gone x) p) :
    (machine T.cfg).Yields (w.line stop) t fuel p m fun x _ => gone x → P :=
  (Machine.yields_returns hp).imp fun _ _ _ _ hnot hgone => absurd hgone hnot

/-- Only a row that is not valid is refused. -/
theorem yields_verified {f : Bool → Core n W PK α} (hm : m₀ ≤ m)
    (hvalid : Prog.Returns (S := coreSig n W PK) (fun x => ¬ gone x) (f true)) :
    (machine T.cfg).Yields (w.line stop) t fuel (verifySlot i v >>= f) m fun x _ =>
      gone x → Lacks w.memAt i (some v) m₀ stop := by
  refine (yields_verifySlot hm).bind fun valid j _ _ hlacks => ?_
  cases valid with
  | false => exact Machine.yields_any fun _ _ _ => hlacks rfl
  | true => exact yields_never hvalid

/-- An update that is refused has seen such a moment. -/
theorem yields_updateRow_gone (old new scratch : Image n W) :
    (machine T.cfg).Yields (w.line stop) t fuel (updateRow T.cfg i v old new scratch) m fun r _ =>
      r.rc = .deleted → Lacks w.memAt i (some v) m stop := by
  refine Machine.Yields.ite (fun _ => ?_) fun _ => ?_
  · refine Machine.yields_after fun _ j hj => yields_verified hj ?_
    exact Prog.returns_after _ fun _ => Prog.returns_after _ fun _ hgone => by cases hgone
  · refine Machine.yields_after fun _ j hj => Machine.yields_after fun dup j₁ hj₁ => ?_
    cases dup with
    | some k => exact yields_never (Prog.returns_after _ fun _ hgone => by cases hgone)
    | none =>
      refine Machine.yields_after fun _ j₂ hj₂ => yields_verified (by omega) ?_
      refine Prog.returns_after _ fun _ => Prog.returns_after _ fun _ => ?_
      exact Prog.returns_after _ fun _ => Prog.returns_after _ fun _ hgone => by cases hgone

theorem yields_updateRowLocked_gone (old new scratch : Image n W) :
    (machine T.cfg).Yields (w.line stop) t fuel
    (updateRowLocked T.cfg i v old new scratch) m fun r _ =>
      r.rc = .deleted → Lacks w.memAt i (some v) m stop := by
  refine yields_verified (Nat.le_refl m) (Prog.Returns.ite (fun _ => ?_) fun hinvalid =>
    absurd rfl hinvalid)
  refine Prog.Returns.ite (fun _ => Prog.returns_after _ fun _ hgone => by cases hgone) fun _ => ?_
  refine Prog.returns_after _ fun _ => Prog.returns_after _ fun dup => ?_
  cases dup with
  | some k => exact Prog.returns_after _ fun _ hgone => by cases hgone
  | none =>
    refine Prog.returns_after _ fun _ => Prog.returns_after _ fun _ => ?_
    exact Prog.returns_after _ fun _ hgone => by cases hgone

/-- The rest of a delete does not find the row gone. -/
theorem returns_deleteTail (cfg : ShareCfg n W PK) (scratch : Image n W) :
    Prog.Returns (S := coreSig n W PK) (fun rc => ¬ rc = .deleted) (deleteTail cfg i scratch) := by
  refine Prog.returns_after _ fun _ => Prog.returns_after _ fun _ =>
    Prog.returns_after _ fun _ => ?_
  refine Prog.returns_after _ fun _ => Prog.returns_after _ fun _ =>
    Prog.returns_after _ fun _ => ?_
  exact Prog.returns_after _ fun _ => Prog.returns_after _ fun _ hgone => by cases hgone

/-- A delete that is refused has seen such a moment. -/
theorem yields_deleteRow_gone (scratch : Image n W) :
    (machine T.cfg).Yields (w.line stop) t fuel (deleteRow T.cfg i v scratch) m fun rc _ =>
      rc = .deleted → Lacks w.memAt i (some v) m stop := by
  refine Machine.yields_after fun _ j hj => yields_verified hj ?_
  refine Prog.returns_after _ fun _ => Prog.returns_after _ fun _ => ?_
  exact returns_deleteTail T.cfg scratch

theorem yields_deleteRowLocked_gone (scratch : Image n W) :
    (machine T.cfg).Yields (w.line stop) t fuel (deleteRowLocked T.cfg i v scratch) m fun rc _ =>
      rc = .deleted → Lacks w.memAt i (some v) m stop := by
  refine yields_verified (Nat.le_refl m) (Prog.returns_after _ fun _ => ?_)
  exact returns_deleteTail T.cfg scratch

/-- A call that returns `FM_ERR_DELETED` has come to a moment at which its row was not there. -/
theorem yields_code_gone {o : CoreOp n W PK} (l : Session n W) (hnames : o.names = some (i, g)) :
    (machine T.cfg).Yields (w.line stop) t fuel (o.code T.cfg l) m fun x _ =>
      x.1.refused = true → Lacks w.memAt i g m stop := by
  have hret : ∀ {β : Type} {p : Core n W PK β} {f : β → CoreOut n W × Session n W}
      {gone : β → Prop} {h : Option Nat},
      (machine T.cfg).Yields (w.line stop) t fuel p m (fun b _ => gone b →
        Lacks w.memAt i h m stop) →
      (∀ b, (f b).1.refused = true → gone b) →
      (machine T.cfg).Yields (w.line stop) t fuel (p >>= fun b => pure (f b)) m fun x _ =>
        x.1.refused = true → Lacks w.memAt i h m stop := by
    intro β p f gone h hp hf
    exact hp.bind fun b _ _ _ hlacks => Machine.yields_ret fun hgone => hlacks (hf b hgone)
  cases o with
  | readRow idx cg v b =>
    cases hnames
    exact hret (yields_readRow_gone (Nat.le_refl m) cg v b) fun _ => of_decide_eq_true
  | updateRow idx v old new b =>
    cases hnames
    exact hret (yields_updateRow_gone old new b) fun _ => of_decide_eq_true
  | deleteRow idx v b =>
    cases hnames
    exact hret (yields_deleteRow_gone b) fun _ => of_decide_eq_true
  | updateRowLocked idx v old new b =>
    cases hnames
    exact hret (yields_updateRowLocked_gone old new b) fun _ => of_decide_eq_true
  | deleteRowLocked idx v b =>
    cases hnames
    exact hret (yields_deleteRowLocked_gone b) fun _ => of_decide_eq_true
  | _ => cases hnames

end

variable {cfg : ShareCfg n W PK} {data : Int → Image n W}
  {c : Config (coreSig n W PK) (Share n W) (CoreOp n W PK) (Session n W) (CoreOut n W)}

/-- A table that a share shows has no row where the share has none. -/
theorem Share.Shows.lacks {s : Share n W} {V : Rows n W} (h : s.Shows V) {i : Int} {g : Option Nat}
    (hlacks : s.state i ≠ .active ∨ ∃ v, g = some v ∧ s.gen i ≠ v) {u : Nat} {img : Image n W}
    (hrow : V i = some (u, img)) : ∃ v, g = some v ∧ u ≠ v := by
  by_cases hactive : s.state i = .active
  · obtain ⟨img', hshown, -⟩ := h.row i hactive
    rw [hrow] at hshown
    cases hshown
    exact hlacks.resolve_left fun hnot => hnot hactive
  · rw [h.gone i hactive] at hrow
    cases hrow

/-- **A call that returns `FM_ERR_DELETED` is right.**  In every state that any calls of any threads
reach, for each read, update and delete that has returned it there is a moment of the call at
which the table of rows has no row in the slot the call names, or one of another generation. -/
theorem refused_rows_are_gone (h : (coreSystem cfg CoreOp.editing).Reach FlipsApart
      (System.start (Share.fresh data) fun _ => Session.empty) c) :
    ∀ ev ∈ c.world.log, ∀ idx g, ev.call.op.names = some (idx, g) → ev.out.refused = true →
      ∃ m, ev.call.start ≤ m ∧ m ≤ ev.stop ∧
        ∀ u img, tableAt c.world m idx = some (u, img) → ∃ v, g = some v ∧ u ≠ v := by
  intro ev hev idx g hnames hrefused
  let T := editSetting cfg (Share.fresh data) FlipsApart
  have hlacks := h.returned hev (Q := fun out => out.refused = true →
    Lacks c.world.memAt idx g ev.call.start ev.stop) fun l fuel _ _ =>
      yields_code_gone (T := T) l hnames
  obtain ⟨m, hstart, hm, hgone⟩ := hlacks hrefused
  have hshows := shows_tableAt (fun _ _ i hapart => hapart i rfl) h (hm.trans (h.span hev).2)
  exact ⟨m, hstart, hm, fun u img hrow => hshows.lacks hgone hrow⟩

/-- A read looks at the state of a slot, and at its generation after another row has been
put there. -/
theorem refused_rows_are_gone_reused_slot :
    ∃ c, (coreSystem (wordTable 0) CoreOp.editing).Reach FlipsApart
        (System.start (Share.fresh fun _ _ => 0) fun _ => Session.empty) c ∧
        c.world.mem.state 0 = .active ∧
      ∃ ev ∈ c.world.log, ev.call.op.names = some (0, some 0) ∧ ev.out.refused = true ∧
        ∃ m, ev.call.start ≤ m ∧ m ≤ ev.stop ∧
          ∀ u img, tableAt c.world m 0 = some (u, img) → ∃ v, some 0 = some v ∧ u ≠ v := by
  let steps : List (Label (CoreOp 1 Nat Nat)) :=
    [Label.call 0 (.insertRow (fun _ => 7) fun _ => 0) 33,
      Label.call 0 (.readRow 0 true 0 fun _ => 0) 2, Label.call 1 (.deleteRow 0 0 fun _ => 0) 15,
      Label.call 1 (.insertRow (fun _ => 3) fun _ => 0) 9, Label.steps 0 2].flatten
  have hrun : (System.rehearse (coreSystem (wordTable 0) CoreOp.editing) clearsNothing
      (System.start (Share.fresh fun _ _ => 0) fun _ => Session.empty) steps).any (fun c =>
        decide (c.world.mem.state 0 = .active) && c.world.log.any fun ev =>
          decide (ev.call.op.names = some (0, some 0)) && ev.out.refused) = true := by
    decide +kernel
  obtain ⟨c, hc, hstate⟩ := (Option.any_eq_true _ _).mp hrun
  obtain ⟨hactive, hlog⟩ := Bool.and_eq_true_iff.mp hstate
  obtain ⟨ev, hev, hcall⟩ := List.any_eq_true.mp hlog
  obtain ⟨hnames, hrefused⟩ := Bool.and_eq_true_iff.mp hcall
  have hreach := System.Reach.of_rehearse (fun _ _ _ h => flipsApart_of_clearsNothing h) _ steps hc
  exact ⟨c, hreach, of_decide_eq_true hactive, ev, hev, of_decide_eq_true hnames, hrefused,
    refused_rows_are_gone hreach ev hev 0 (some 0) (of_decide_eq_true hnames) hrefused⟩

end FastMem
