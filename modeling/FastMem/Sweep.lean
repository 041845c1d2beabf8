import Mathlib.Algebra.Ring.Nat

/-!
# Sweeping over numbered cells that change

A cursor runs over the cells 0, 1, 2, … of a world that others change between its
steps.  Each step looks at the world as it is then, passes the cells that are off, and
delivers the next one that is on.  No cell is delivered twice, and a cell behind the
cursor that was on in every world has been delivered.
-/

namespace Sweep

variable {σ : Type} {on : σ → Nat → Prop} {ws : List σ} {ds : List (σ × Nat)} {pos u : Nat} {w : σ}

/-- The worlds so far, the cells delivered so far, each with the world it was delivered
in, and the cursor; the latest first. -/
inductive Swept (on : σ → Nat → Prop) : List σ → List (σ × Nat) → Nat → Prop
  | start (w : σ) : Swept on [w] [] 0
  | change {ws : List σ} {ds : List (σ × Nat)} {pos : Nat} (w : σ) (before : Swept on ws ds pos) :
      Swept on (w :: ws) ds pos
  | next {w : σ} {ws : List σ} {ds : List (σ × Nat)} {pos u : Nat}
    (before : Swept on (w :: ws) ds pos)
      (ahead : pos ≤ u) (found : on w u) (first : ∀ v, pos ≤ v → v < u → ¬ on w v) :
      Swept on (w :: ws) ((w, u) :: ds) (u + 1)

/-- What has been delivered lies behind the cursor, and was on. -/
theorem Swept.delivered (h : Swept on ws ds pos) (hd : (w, u) ∈ ds) :
    u < pos ∧ w ∈ ws ∧ on w u := by
  induction h with
  | start => cases hd
  | change w' _ ih =>
      obtain ⟨hlt, hmem, hon⟩ := ih hd
      exact ⟨hlt, List.mem_cons_of_mem w' hmem, hon⟩
  | next before ahead found _ ih =>
      rcases List.mem_cons.mp hd with heq | hd
      · cases heq
        exact ⟨Nat.lt_succ_self _, List.mem_cons_self, found⟩
      · obtain ⟨hlt, hmem, hon⟩ := ih hd
        exact ⟨by omega, hmem, hon⟩

/-- No cell is delivered twice. -/
theorem Swept.nodup (h : Swept on ws ds pos) : (ds.map Prod.snd).Nodup := by
  induction h with
  | start => exact List.nodup_nil
  | change _ _ ih => exact ih
  | next before ahead _ _ ih =>
      rw [List.map_cons, List.nodup_cons]
      refine ⟨fun hmem => ?_, ih⟩
      obtain ⟨⟨w', u'⟩, hd, heq⟩ := List.mem_map.mp hmem
      have hlt := (before.delivered hd).1
      have heq : u' = _ := heq
      omega

/-- A cell behind the cursor that was on in every world has been delivered. -/
theorem Swept.complete (h : Swept on ws ds pos) (hlt : u < pos) (hon : ∀ w ∈ ws, on w u) :
    ∃ w, (w, u) ∈ ds := by
  induction h with
  | start => omega
  | change w' _ ih => exact ih hlt fun w hw => hon w (List.mem_cons_of_mem w' hw)
  | @next w' ws ds pos v before ahead found first ih =>
      rcases Nat.lt_trichotomy u v with hbefore | rfl | hbehind
      · by_cases hpos : u < pos
        · obtain ⟨w, hd⟩ := ih hpos hon
          exact ⟨w, List.mem_cons_of_mem _ hd⟩
        · exact absurd (hon w' List.mem_cons_self) (first u (by omega) hbefore)
      · exact ⟨w', List.mem_cons_self⟩
      · omega

end Sweep
