import FastMem.RowImages

/-!
# Seqlock reads and the history

`fm_core_read_row` takes no lock: it loads the state, maybe the generation, then the
sequence number, copies the image word by word and loads the sequence number again.
Here is what its two samples are worth.  Since the first of them the number has been
bumped some `N` times; while `N` is 0 no word has changed under the reader, and if the
number is back at its first value with fewer than `2 ^ 31` complete writes in between,
`N` is 0.
-/

namespace FastMem

open Conc

variable {n : Nat} {W PK Op Out : Type}

/-- The history of a share. -/
abbrev CoreEntry (n : Nat) (W PK Op : Type) := Entry (coreSig n W PK) (Share n W) Op

/-- A share with its history. -/
abbrev CoreWorld (n : Nat) (W PK Op Out : Type) := World (coreSig n W PK) (Share n W) Op Out

/-- The last time thread `t` loaded the state of slot `i`, with the memory it found. -/
def lastLook (t : Nat) (i : Int) : List (CoreEntry n W PK Op) → Option (Nat × CoreEntry n W PK Op)
  | [] => none
  | e :: es =>
      match e.act with
      | .loadState j => if e.call.tid = t ∧ j = i then some (es.length, e) else lastLook t i es
      | _ => lastLook t i es

/-- The image writes of slot `i` completed since thread `t` last loaded its state, that
is, since its current attempt to read it began. -/
def writesInAttempt (t : Nat) (i : Int) : List (CoreEntry n W PK Op) → Nat
  | [] => 0
  | e :: es =>
      match e.act with
      | .loadState j => if e.call.tid = t ∧ j = i then 0 else writesInAttempt t i es
      | .addSeq j => (if j = i ∧ e.mem.seq i % 2 = 1 then 1 else 0) + writesInAttempt t i es
      | _ => writesInAttempt t i es

/-- There are no more writes in an attempt than accesses. -/
theorem writesInAttempt_le (t : Nat) (i : Int) (past : List (CoreEntry n W PK Op)) :
    writesInAttempt t i past ≤ past.length := by
  induction past with
  | nil => exact Nat.le_refl _
  | cons e es ih =>
      unfold writesInAttempt
      split
      · split
        · exact Nat.zero_le _
        · exact ih.trans (Nat.le_succ _)
      · split <;> simp only [List.length_cons] <;> omega
      · exact ih.trans (Nat.le_succ _)

variable {cfg : ShareCfg n W PK} {K : Kind → Prop} {G : Commit n W → Prop} {now t : Nat}
  {s s' : Share n W} {g g' : Role n W} {a : Act n W} {r : a.Res} {γ : Nat → Role n W}
  {w : CoreWorld n W PK Op Out} {c : Call Op} {i : Int}

/-- Only a step of a read changes where a thread stands in one, and nothing else it
does looks like the beginning of an attempt. -/
theorem Step.read_eq (h : Step cfg K G now s g a r g') :
    ReadStep G now s g a r g' ∨ g'.read = g.read ∧ (a.samples = true → g.read = .none) := by
  cases h with
  | read h => exact Or.inl h
  | view h =>
      right
      cases h with
      | look passive unread => exact ⟨rfl, fun hs => unread.resolve_left (by simp [hs])⟩
      | active held phase unread => exact ⟨rfl, fun _ => unread⟩
      | _ => exact ⟨rfl, by simp [Act.samples]⟩
  | dup h =>
      right
      cases h with
      | state dup unread => exact ⟨rfl, fun _ => unread⟩
      | word => exact ⟨rfl, by simp [Act.samples]⟩
      | enter => exact ⟨by grind, by simp [Act.samples]⟩
      | next => exact ⟨by grind, by simp [Act.samples]⟩
  | chain h =>
      right
      cases h with
      | enter => exact ⟨by grind, by simp [Act.samples]⟩
      | next => exact ⟨by grind, by simp [Act.samples]⟩
      | _ => exact ⟨rfl, by simp [Act.samples]⟩
  | note h =>
      right
      cases h with
      | see unread => exact ⟨rfl, fun _ => unread⟩
      | pin held phase unread => exact ⟨rfl, fun _ => unread⟩
  | lock h | free h | grow h | slot h | image h =>
      right; cases h <;> exact ⟨rfl, by simp [Act.samples]⟩

/-- Who stores into an image: a thread that fills the slot or one that is inside an
image write. -/
theorem Step.storeWord {i : Int} {j : Fin n} {x : W} {r : Unit}
    (h : Step cfg K G now s g (.storeWord i j x) r g') :
    g.slot = i ∧ (g.phase = .fill ∧ (∀ k, g.map k = none) ∨ g.phase = .write) := by
  cases h with
  | image hs =>
      cases hs with
      | fill phase map => exact ⟨rfl, Or.inl ⟨phase, map⟩⟩
      | word phase target => exact ⟨rfl, Or.inr phase⟩
  | view hs => cases hs with | look passive => cases passive
  | read hs => cases hs with | miss passive => cases passive
  | lock hs | free hs | grow hs | slot hs | chain hs | dup hs | note hs => cases hs

/-- Who builds the slots of a chunk: an insert inside the struct mutex. -/
theorem Step.initSlots {k : Nat} {r : Unit} (h : Step cfg K G now s g (.initSlots k) r g') :
    K .insert ∧ Lock.mutex ∈ g.locks ∧ g.chunk = some k := by
  cases h with
  | grow hs => cases hs with | initSlots kind held chunk free => exact ⟨kind, held, chunk⟩
  | view hs => cases hs with | look passive => cases passive
  | read hs => cases hs with | miss passive => cases passive
  | lock hs | free hs | slot hs | image hs | chain hs | dup hs | note hs => cases hs

/-- What an access does to the sequence number and the image of a slot. -/
theorem exec_image (i : Int) (hexec : exec cfg t a s = some (r, s')) :
    a = .addSeq i ∧ s'.seq i = (s.seq i + 1) % 2 ^ 32 ∧ s'.data i = s.data i ∨
      (∃ j x, a = .storeWord i j x) ∧ s'.seq i = s.seq i ∨
      (∃ k, a = .initSlots k ∧ u32 i / chunkSize = k) ∨
      a ≠ .addSeq i ∧ (∀ j x, a ≠ .storeWord i j x) ∧ s'.seq i = s.seq i ∧
      s'.data i = s.data i := by
  cases a with
  | addSeq j =>
      cases hexec
      by_cases hj : j = i
      · subst hj
        exact Or.inl ⟨rfl, by simp, rfl⟩
      · exact Or.inr (Or.inr (Or.inr ⟨by simpa using hj, by simp, by simp [Ne.symm hj], rfl⟩))
  | storeWord j k x =>
      cases hexec
      by_cases hj : j = i
      · subst hj
        exact Or.inr (Or.inl ⟨⟨k, x, rfl⟩, rfl⟩)
      · refine Or.inr (Or.inr (Or.inr ⟨by simp, ?_, rfl, by simp [Ne.symm hj]⟩))
        rintro j' x' heq
        cases heq
        exact hj rfl
  | initSlots k =>
      cases hexec
      by_cases hk : u32 i / chunkSize = k
      · exact Or.inr (Or.inr (Or.inl ⟨k, rfl, hk⟩))
      · exact Or.inr (Or.inr (Or.inr ⟨by simp, by simp, by simp [hk], rfl⟩))
  | lock l =>
      simp only [exec] at hexec
      split at hexec
      · cases hexec
        exact Or.inr
          (Or.inr (Or.inr ⟨by simp, by simp, by rw [setOwner_seq], by rw [setOwner_data]⟩))
      · cases hexec
  | unlock l =>
      cases hexec
      exact Or.inr (Or.inr (Or.inr ⟨by simp, by simp, by rw [setOwner_seq], by rw [setOwner_data]⟩))
  | casAutoInc cur new =>
      simp only [exec] at hexec
      split at hexec <;> cases hexec <;> exact Or.inr (Or.inr (Or.inr ⟨by simp, by simp, rfl, rfl⟩))
  | _ =>
      cases hexec
      exact Or.inr (Or.inr (Or.inr ⟨by simp, by simp, rfl, rfl⟩))

/-- What a reader's first sample still tells it: the sequence number has been bumped
`N` times since, and if it has not been bumped at all the words it has copied are
still there. -/
def Unmoved (w : CoreWorld n W PK Op Out) (t : Nat) : ReadView n W → Prop
  | .sampled i _ _ _ s₁ _ words => s₁ % 2 = 0 ∧ ∃ N, w.mem.seq i = (s₁ + N) % 2 ^ 32 ∧
      N / 2 ≤ writesInAttempt t i w.past ∧ (N = 0 → ∀ j x, words j = some x → w.mem.data i j = x)
  | _ => True

/-- An access in the middle of a read leaves the reader's sample worth what it was. -/
theorem Unmoved.push {v : ReadView n W} (h : Unmoved w t v)
    (hexec : exec cfg c.tid a w.mem = some (r, s'))
    (hown : c.tid = t → a.samples = true → v = .none)
    (hstore : ∀ i j x, v.slot = some i → a = .storeWord i j x → w.mem.seq i % 2 = 1)
    (hinit : ∀ i k, v.slot = some i → a = .initSlots k → u32 i / chunkSize ≠ k) :
    Unmoved (w.push c a s') t v := by
  cases v with
  | none => trivial
  | stated => trivial
  | got => trivial
  | sampled i m g₀ checked s₁ m₁ words =>
      obtain ⟨heven, N, hseq, hN, hwords⟩ := h
      refine ⟨heven, ?_⟩
      rcases exec_image i hexec with ⟨rfl, hs, hd⟩ | ⟨⟨j, x, rfl⟩, hs⟩ |
        ⟨k, rfl, hk⟩ | ⟨hne, -, hs, hd⟩
      · refine ⟨N + 1, ?_, ?_, by simp⟩
        · rw [World.push_mem, hs, hseq]
          omega
        · simp only [World.push_past, writesInAttempt, true_and]
          rw [hseq]
          split <;> omega
      · have hodd := hstore i j x rfl rfl
        refine ⟨N, by rw [World.push_mem, hs, hseq], hN, fun hzero => ?_⟩
        rw [hseq, hzero] at hodd
        omega
      · exact absurd hk (hinit i k rfl rfl)
      · refine ⟨N, by rw [World.push_mem, hs, hseq], ?_, fun hzero j x hx => ?_⟩
        · simp only [World.push_past, writesInAttempt]
          split
          · rename_i j heq
            split
            · rename_i hown'
              exact absurd (hown hown'.1 rfl) (by simp)
            · exact hN
          · rename_i j heq
            omega
          · exact hN
        · rw [World.push_mem, hd]
          exact hwords hzero j x hx

/-- The second sample agrees with the first. -/
theorem Unmoved.done {m g₀ m₁ : Nat} {checked : Option Nat} {buf : Image n W}
    (h : Unmoved w t (.sampled i m g₀ checked (w.mem.seq i) m₁ (allWords buf)))
    (hfew : writesInAttempt t i w.past < 2 ^ 31) : w.mem.data i = buf ∧ w.mem.seq i % 2 = 0 := by
  obtain ⟨heven, N, hseq, hN, hwords⟩ := h
  have hzero : N = 0 := by omega
  refine ⟨?_, heven⟩
  funext j
  exact hwords hzero j (buf j) rfl

/-- The steps of a read itself. -/
theorem Unmoved.readStep (h : Unmoved w t g.read) (hbound : ∀ i, w.mem.seq i < 2 ^ 32)
    (hexec : exec cfg c.tid a w.mem = some (r, s')) (hstep : ReadStep G w.now w.mem g a r g') :
    Unmoved (w.push c a s') t g'.read := by
  cases hstep with
  | state | gen | miss | done | after => trivial
  | @seq i m g₀ s₁ checked read even =>
      simp only [exec, Option.some.injEq, Prod.mk.injEq] at hexec
      obtain ⟨hs₁, rfl⟩ := hexec
      refine ⟨by omega, 0, ?_, Nat.zero_le _, by simp⟩
      rw [World.push_mem, Nat.add_zero, ← hs₁, Nat.mod_eq_of_lt (hbound i)]
  | @word i m g₀ s₁ m₁ checked words j x read =>
      rw [read] at h
      obtain ⟨heven, N, hseq, hN, hwords⟩ := h
      simp only [exec, Option.some.injEq, Prod.mk.injEq] at hexec
      obtain ⟨hx, rfl⟩ := hexec
      refine ⟨heven, N, hseq, hN, fun hzero j' x' hx' => ?_⟩
      by_cases hj : j' = j
      · subst hj
        simp only [Function.update_self, Option.some.injEq] at hx'
        exact hx.trans hx'
      · simp only [Function.update_of_ne hj] at hx'
        exact hwords hzero j' x' hx'

variable {T : Setting n W PK Op Out}

/-- What the threads of a setting must leave alone while somebody reads a slot: its
words, outside image writes, and its chunk. -/
structure Setting.LeavesReads (T : Setting n W PK Op Out) : Prop where
  bound : ∀ w γ, T.Trace w γ → ∀ i, w.mem.seq i < 2 ^ 32
  store : ∀ w γ c r g i j x t, T.Trace w γ → T.meets c (.storeWord i j x) w →
    T.rules.step c w (γ c.tid) (.storeWord i j x) r g → (γ t).read.slot = some i →
    w.mem.seq i % 2 = 1
  init : ∀ w γ c r g k i t, T.Trace w γ → T.rules.step c w (γ c.tid) (.initSlots k) r g →
    (γ t).read.slot = some i → u32 i / chunkSize ≠ k

/-- **A reader's sample keeps its worth along every trace.** -/
theorem trace_unmoved (hT : T.LeavesReads) (h : T.Trace w γ) : ∀ t, Unmoved w t (γ t).read := by
  induction h with
  | init => exact fun t => trivial
  | @start w γ t _ ih =>
      rw [Function.forall_update_iff γ fun u g => Unmoved w u g.read]
      exact ⟨trivial, fun u _ => ih u⟩
  | @act w γ c a r s g before meets hexec hstep ih =>
      have hstore : ∀ t i j x, (γ t).read.slot = some i → a = .storeWord i j x →
          w.mem.seq i % 2 = 1 := by
        rintro t i j x hslot rfl
        exact hT.store w γ c r g i j x t before meets hstep hslot
      have hinit : ∀ t i k, (γ t).read.slot = some i → a = .initSlots k →
          u32 i / chunkSize ≠ k := by
        rintro t i k hslot rfl
        exact hT.init w γ c r g k i t before hstep hslot
      rw [Function.forall_update_iff γ fun u g => Unmoved (w.push c a s) u g.read]
      refine ⟨?_, fun u hu => (ih u).push hexec (fun h => absurd h.symm hu) (hstore u) (hinit u)⟩
      rcases hstep.read_eq with hread | ⟨hsame, hsamples⟩
      · exact (ih c.tid).readStep (hT.bound w γ before) hexec hread
      · rw [hsame]
        exact (ih c.tid).push hexec (fun _ ha => hsamples ha) (hstore c.tid) (hinit c.tid)
  | stop _ _ ih => exact ih

/-- The time at which a read saw its slot ACTIVE. -/
def ReadView.time : ReadView n W → Nat
  | .none => 0
  | .stated _ m .. | .sampled _ m .. | .got _ m .. => m

/-- What a read remembers is in the past. -/
theorem trace_read_time (h : T.Trace w γ) : ∀ t, (γ t).read.time ≤ w.now := by
  induction h with
  | init => exact fun t => Nat.zero_le _
  | @start w γ t _ ih =>
      rw [Function.forall_update_iff γ fun _ g => g.read.time ≤ w.now]
      exact ⟨Nat.zero_le _, fun u _ => ih u⟩
  | @act w γ c a r s g _ _ _ hstep ih =>
      rw [World.push_now, Function.forall_update_iff γ fun _ g => g.read.time ≤ w.now + 1]
      refine ⟨?_, fun u _ => (ih u).trans (Nat.le_succ _)⟩
      have hc := ih c.tid
      rcases hstep.read_eq with hread | ⟨hsame, -⟩
      · cases hread with
        | state => exact Nat.le_succ _
        | miss => exact Nat.zero_le _
        | gen read | seq read | word read | done read | after read =>
            rw [read] at hc
            exact hc.trans (Nat.le_succ _)
      · rw [hsame]
        exact hc.trans (Nat.le_succ _)
  | stop _ _ ih => exact ih

/-- At some moment from `m` to `k`, `R` was true of the share. -/
def During (w : CoreWorld n W PK Op Out) (m k : Nat) (R : Share n W → Prop) : Prop :=
  ∃ m', m ≤ m' ∧ m' ≤ k ∧ R (w.memAt m')

/-- What held during a call has held later on. -/
theorem During.push {m k : Nat} {R : Share n W → Prop} (h : During w m k R) (hk : k ≤ w.now)
    (c : Call Op) (a : Act n W) (s : Share n W) : During (w.push c a s) m k R := by
  obtain ⟨m', hm, hmk, hR⟩ := h
  refine ⟨m', hm, hmk, ?_⟩
  rw [World.memAt_push (hmk.trans hk)]
  exact hR

/-- It holds during any longer time. -/
theorem During.mono {m k k' : Nat} {R : Share n W → Prop} (h : During w m k R) (hk : k ≤ k') :
    During w m k' R := by
  obtain ⟨m', hm, hmk, hR⟩ := h
  exact ⟨m', hm, hmk.trans hk, hR⟩

/-- If `R` is true, at some moment of the read, of every read whose samples agree, and
stays true when the generation is loaded afterwards, it is true of every read that has
delivered. -/
theorem trace_got {R : Int → Nat → Option Nat → Image n W → Share n W → Prop}
    (hdone : ∀ w γ c i m g₀ checked m₁ buf, T.Trace w γ → T.meets c (.loadSeq i) w →
      T.commits c w (.agree i) →
      (γ c.tid).read = .sampled i m g₀ checked (w.mem.seq i) m₁ (allWords buf) →
      During w m w.now (R i g₀ checked buf))
    (hafter : ∀ w γ c i m g₀ checked buf, T.Trace w γ → T.meets c (.loadGen i) w →
      T.commits c w (.check i) →
      (γ c.tid).read = .got i m g₀ checked buf → During w m w.now (R i g₀ checked buf) →
      During w m w.now (R i g₀ (some (w.mem.gen i)) buf)) (h : T.Trace w γ) :
    ∀ t i m g₀ checked buf, (γ t).read = .got i m g₀ checked buf →
      During w m w.now (R i g₀ checked buf) := by
  induction h with
  | init =>
      intro t i m g₀ checked buf hgot
      cases hgot
  | @start w γ t _ ih =>
      rw [Function.forall_update_iff γ fun _ g => ∀ i m g₀ checked buf,
        g.read = .got i m g₀ checked buf → During w m w.now (R i g₀ checked buf)]
      refine ⟨?_, fun u _ => ih u⟩
      intro i m g₀ checked buf hgot
      cases hgot
  | @act w γ c a r s g before meets hexec hstep ih =>
      rw [Function.forall_update_iff γ fun _ g => ∀ i m g₀ checked buf,
        g.read = .got i m g₀ checked buf →
        During (w.push c a s) m (w.push c a s).now (R i g₀ checked buf)]
      have hkeep : ∀ {m : Nat} {P : Share n W → Prop}, During w m w.now P →
          During (w.push c a s) m (w.push c a s).now P :=
        fun h => (h.push (Nat.le_refl _) c a s).mono (Nat.le_succ _)
      refine ⟨?_, fun u _ i m g₀ checked buf hgot => hkeep (ih u i m g₀ checked buf hgot)⟩
      intro i m g₀ checked buf hgot
      rcases hstep.read_eq with hread | ⟨hsame, -⟩
      · cases hread with
        | state | gen | seq | word | miss => cases hgot
        | done read commit =>
            cases hgot
            simp only [exec, Option.some.injEq, Prod.mk.injEq] at hexec
            obtain ⟨rfl, -⟩ := hexec
            exact hkeep (hdone w γ c _ _ _ _ _ _ before meets commit read)
        | after read commit =>
            cases hgot
            simp only [exec, Option.some.injEq, Prod.mk.injEq] at hexec
            obtain ⟨rfl, -⟩ := hexec
            exact hkeep (hafter w γ c _ _ _ _ _ before meets commit read (ih c.tid _ _ _ _ _ read))
      · rw [hsame] at hgot
        exact hkeep (ih c.tid i m g₀ checked buf hgot)
  | stop _ _ ih => exact ih

end FastMem
