import S2Pac.DagSearch

/-!
# The log of the DAG commitor

`DAGCommitor.run` emits a block and then, breadth first, what it refers to. A replica that has not
committed the anchor of a view finds it again below a later anchor, and emits it after that one, where
a replica that has committed it in its view has emitted it before. The two logs are the same exactly
if every anchor that the second replica was not given had been emitted by the time its turn came
(`dag_logs_agree_iff`).

Over a store that does not change, `run` is a series of searches over the references that are in the
store (`DagInv`), however its steps are interleaved with calls of `Commit`.
-/

set_option linter.unusedSectionVars false

namespace S2Pac

open Lib DAGCommitor

variable {D : Type} [DecidableEq D] {E : Env D} {st : Store D}

/-- A finite store that holds every block under its hash and every block that is referred to, with no
cycle of references. -/
structure DagStore (E : Env D) (st : Store D) : Prop where
  own : ∀ d b, getBlock st d = some b → b.hash E = d
  resolves : ∀ d b, getBlock st d = some b → ∀ qc ∈ b.references,
    (getBlock st qc.parentBlockHash).isSome
  acyclic : ∀ b, ¬ Relation.TransGen (fun b c => c ∈ resolved st b) b b
  finite : {d | (getBlock st d).isSome}.Finite

theorem DagStore.ownStore (h : DagStore E st) : OwnStore E st := ⟨h.own, h.finite⟩

/-- What is left to do: the queue in hand, then the blocks on the channel. -/
def Rest (st : Store D) (c : Commitor D) (log l : List (Block D)) : Prop :=
  ∃ l₁, WorksOff (resolved st) log c.work.pending l₁ ∧ Serves (resolved st) l₁ c.blocksChan l

/-- **The invariant of the DAG commitor**: what has been emitted and what is left to do make up the
series of searches over the blocks that went through `Commit`. -/
structure DagInv (E : Env D) (st : Store D) (s : Feed D) : Prop where
  committed : ∀ d, d ∈ s.commitor.committedBlcoks ↔ ∃ b ∈ s.log, b.hash E = d
  log_stored : ∀ b ∈ s.log, Stored E st b
  pending_stored : ∀ b ∈ s.commitor.work.pending, Stored E st b
  chan_stored : ∀ b ∈ s.commitor.blocksChan, Stored E st b
  work : s.commitor.work = .idle ∨ ∃ queue, s.commitor.work = .bfs queue
  serves : ∀ l, Rest st s.commitor s.log l → Serves (resolved st) [] s.passed l

namespace DagInv

variable {s : Feed D}

theorem new : DagInv E st Feed.new where
  committed := by simp [Feed.new, Commitor.new]
  log_stored := by simp [Feed.new]
  pending_stored := by simp [Feed.new, Commitor.new, Work.pending]
  chan_stored := by simp [Feed.new, Commitor.new]
  work := Or.inl rfl
  serves := by
    rintro l ⟨l₁, hw, hs⟩
    cases hw
    exact hs

theorem hash_mem_iff (h : DagInv E st s) {b : Block D} (hb : Stored E st b) :
    b.hash E ∈ s.commitor.committedBlcoks ↔ b ∈ s.log := by
  rw [h.committed]
  constructor
  · rintro ⟨a, ha, hh⟩
    exact OwnStore.hash_inj (h.log_stored a ha) hb hh ▸ ha
  · intro hm
    exact ⟨b, hm, rfl⟩

theorem commits (h : DagInv E st s) {b : Block D} (hb : Stored E st b) {c : Commitor D}
    (hc : s.commitor.commit b = some c) :
    DagInv E st ⟨c, s.calls ++ [b], if s.commitor.filtered b then s.passed else s.passed ++ [b],
      s.log⟩ := by
  unfold Commitor.commit at hc
  by_cases hf : s.commitor.filtered b
  · rw [if_pos hf] at hc ⊢
    cases hc
    exact ⟨h.committed, h.log_stored, h.pending_stored, h.chan_stored, h.work, h.serves⟩
  · rw [if_neg hf] at hc ⊢
    split at hc
    · cases hc
      refine ⟨h.committed, h.log_stored, h.pending_stored, fun x hx => ?_, h.work, ?_⟩
      · rcases List.mem_append.1 hx with hx | hx
        · exact h.chan_stored x hx
        · rw [List.mem_singleton.1 hx]
          exact hb
      · rintro l ⟨l₁, hw, hs⟩
        obtain ⟨l₂, hs₂, hw₂⟩ := hs.of_snoc
        exact (h.serves l₂ ⟨l₁, hw, hs₂⟩).snoc hw₂
    · cases hc

theorem runs (hst : DagStore E st) (h : DagInv E st s) {c : Commitor D} {bs : List (Block D)}
    (hr : DAGCommitor.run E st s.commitor = some (c, bs)) :
    DagInv E st ⟨c, s.calls, s.passed, s.log ++ bs⟩ := by
  have hpend := h.pending_stored
  cases DAGCommitor.step_of_run hr with
  | @take b rest hw hch =>
    have hchan := h.chan_stored
    rw [hch] at hchan
    rw [List.append_nil]
    refine ⟨h.committed, h.log_stored, fun x hx => ?_,
      fun x hx => hchan x (List.mem_cons_of_mem _ hx), Or.inr ⟨[b], rfl⟩, ?_⟩
    · rw [List.mem_singleton.1 hx]
      exact hchan b List.mem_cons_self
    · rintro l ⟨l₁, hw₁, hs₁⟩
      refine h.serves l ⟨s.log, ?_, ?_⟩
      · rw [hw]
        exact WorksOff.done
      · rw [hch]
        exact Serves.cons hw₁ hs₁
  | finish hw =>
    rw [List.append_nil]
    refine ⟨h.committed, h.log_stored, fun x hx => absurd hx List.not_mem_nil, h.chan_stored,
      Or.inl rfl, ?_⟩
    rintro l ⟨l₁, hw₁, hs₁⟩
    refine h.serves l ⟨l₁, ?_, hs₁⟩
    rw [hw]
    exact hw₁
  | @skip b rest hw hcom =>
    rw [hw] at hpend
    rw [List.append_nil]
    refine ⟨h.committed, h.log_stored, fun x hx => hpend x (List.mem_cons_of_mem _ hx),
      h.chan_stored, Or.inr ⟨rest, rfl⟩, ?_⟩
    rintro l ⟨l₁, hw₁, hs₁⟩
    refine h.serves l ⟨l₁, ?_, hs₁⟩
    rw [hw]
    exact WorksOff.skip ((h.hash_mem_iff (hpend b List.mem_cons_self)).1 hcom) hw₁
  | @emit b rest hw hcom =>
    rw [hw] at hpend
    have hb : Stored E st b := hpend b List.mem_cons_self
    refine ⟨fun d => ?_, fun x hx => ?_, fun x hx => ?_, h.chan_stored, Or.inr ⟨_, rfl⟩, ?_⟩
    · rw [List.mem_cons, h.committed]
      exact hash_mem_snoc
    · rcases List.mem_append.1 hx with hx | hx
      · exact h.log_stored x hx
      · rw [List.mem_singleton.1 hx]
        exact hb
    · rcases List.mem_append.1 hx with hx | hx
      · exact hpend x (List.mem_cons_of_mem _ hx)
      · exact hst.ownStore.stored_of_resolved hx
    · rintro l ⟨l₁, hw₁, hs₁⟩
      refine h.serves l ⟨l₁, ?_, hs₁⟩
      rw [hw]
      exact WorksOff.visit (fun hl => hcom ((h.hash_mem_iff hb).2 hl)) hw₁

end DagInv

namespace Feed

variable {s : Feed D}

theorem Reach.dagInv (hst : DagStore E st) (hs : Reach (DAGCommitor.run E st) s)
    (hcalls : ∀ b ∈ s.calls, Stored E st b) : DagInv E st s := by
  induction hs with
  | refl => exact DagInv.new
  | tail _ hstep ih =>
    have hinv := ih fun b hb => hcalls b (hstep.calls_subset b hb)
    rcases hstep with h | h
    · cases h with
      | @call b c hc =>
        exact hinv.commits (hcalls b (List.mem_append_right _ (List.mem_singleton_self _))) hc
    · cases h with
      | step hr => exact hinv.runs hst hr

/-- At rest, the log is the series of searches over the blocks that went through `Commit`. -/
theorem serves_of_quiet (h : DagInv E st s) (hq : Quiet (DAGCommitor.run E st) s) :
    Serves (resolved st) [] s.passed s.log := by
  obtain ⟨hw, hch⟩ := (quiet_iff_of_work h.work).1 hq
  refine h.serves s.log ⟨s.log, ?_, ?_⟩
  · rw [hw]
    exact WorksOff.done
  · rw [hch]
    exact Serves.nil

/-! ## `run` comes to rest -/

/-- **Whatever has been handed over, `run` works it off.** -/
theorem Reach.exists_dag_quiet (hst : DagStore E st) (h : DagInv E st s) :
    ∃ s', Drains (DAGCommitor.run E st) s s' ∧ Quiet (DAGCommitor.run E st) s' :=
  exists_quiet_of_universe hst.ownStore.blocks h.work h.pending_stored h.chan_stored

theorem exists_reach_quiet (hst : DagStore E st) (bs : List (Block D))
    (hbs : ∀ b ∈ bs, Stored E st b) :
    ∃ s, Reach (DAGCommitor.run E st) s ∧ s.calls = bs ∧ Quiet (DAGCommitor.run E st) s := by
  induction bs using List.reverseRecOn with
  | nil => exact ⟨new, Relation.ReflTransGen.refl, rfl, rfl⟩
  | append_singleton bs b ih =>
    obtain ⟨s, hs, hcalls, hq⟩ := ih fun x hx => hbs x (List.mem_append_left _ hx)
    have hinv := Reach.dagInv hst hs (by rw [hcalls]; exact fun x hx => hbs x (List.mem_append_left _ hx))
    obtain ⟨-, hch⟩ := (quiet_iff_of_work hinv.work).1 hq
    obtain ⟨c, hc⟩ : ∃ c, s.commitor.commit b = some c := by
      unfold Commitor.commit
      split
      · exact ⟨_, rfl⟩
      · rw [hch, if_pos (by simp [chanCap])]
        exact ⟨_, rfl⟩
    have hs₁ := Relation.ReflTransGen.tail hs (Or.inl (Commits.call hc))
    obtain ⟨s', hd, hq'⟩ := Reach.exists_dag_quiet hst
      (hinv.commits (hbs b (List.mem_append_right _ (List.mem_singleton_self _))) hc)
    refine ⟨s', hd.reach hs₁, ?_, hq'⟩
    rw [hd.same.1, hcalls]

/-! ## What goes through `Commit` -/

/-- `a` does not lie after `b` in the order of views and heights. -/
def NotAfter (a b : Block D) : Prop := a.view < b.view ∨ (a.view = b.view ∧ a.height ≤ b.height)

/-- The last block that went through is one that `Commit` was called with. -/
theorem Reach.last_cases {run : Commitor D → Option (Commitor D × List (Block D))}
    (hrun : ∀ c c' bs, run c = some (c', bs) → c'.lastView = c.lastView ∧ c'.lastHeight = c.lastHeight)
    (hs : Reach run s) : 0 ≤ s.commitor.lastView ∧
      (s.commitor.lastView = 0 ∧ s.commitor.lastHeight = 0 ∨
        ∃ b ∈ s.calls, s.commitor.lastView = b.view ∧ s.commitor.lastHeight = b.height) := by
  induction hs with
  | refl => exact ⟨Int.le_refl 0, Or.inl ⟨rfl, rfl⟩⟩
  | @tail s _ _ hstep ih =>
    rcases hstep with h | h
    · cases h with
      | @call b c hc =>
        unfold Commitor.commit at hc
        split at hc
        · cases hc
          refine ⟨ih.1, ih.2.imp_right ?_⟩
          rintro ⟨x, hx, hl⟩
          exact ⟨x, List.mem_append_left _ hx, hl⟩
        · next hf =>
          split at hc
          · cases hc
            simp only [Commitor.filtered, not_or] at hf
            exact ⟨by have := ih.1; have := hf.1; simp only; omega, Or.inr ⟨b, by simp, rfl, rfl⟩⟩
          · cases hc
    · cases h with
      | @step c bs hr =>
        obtain ⟨hv, hh⟩ := hrun _ _ _ hr
        simp only [hv, hh]
        exact ih

/-- When the calls come in the order of views and heights, exactly the blocks of the views from 0 on
go through. -/
theorem Reach.passed_eq {run : Commitor D → Option (Commitor D × List (Block D))}
    (hrun : ∀ c c' bs, run c = some (c', bs) → c'.lastView = c.lastView ∧ c'.lastHeight = c.lastHeight)
    (hs : Reach run s) (hmono : s.calls.Pairwise NotAfter) :
    s.passed = s.calls.filter fun b => decide (0 ≤ b.view) := by
  induction hs with
  | refl => rfl
  | @tail s _ hs hstep ih =>
    rcases hstep with h | h
    · cases h with
      | @call b c hc =>
        obtain ⟨hm, -, hlast⟩ := List.pairwise_append.1 hmono
        obtain ⟨hpos, hcases⟩ := Reach.last_cases hrun hs
        dsimp only
        rw [List.filter_append, ← ih hm]
        by_cases hb : 0 ≤ b.view
        · have hf : ¬ s.commitor.filtered b := by
            unfold Commitor.filtered
            rcases hcases with ⟨hv, hh⟩ | ⟨x, hx, hv, hh⟩
            · omega
            · have := hlast x hx b (List.mem_singleton_self _)
              unfold NotAfter at this
              omega
          rw [if_neg hf]
          simp [hb]
        · have hf : s.commitor.filtered b := Or.inl (by omega)
          rw [if_pos hf]
          simp [hb]
    · cases h with
      | step hr => exact ih hmono

end Feed

/-! ## Anchors left out -/

/-- In the order of views, the anchors of negative views come first. -/
theorem exists_split_view {xs : List (Block D × Bool)}
    (hmono : xs.Pairwise fun x y => Feed.NotAfter x.1 y.1) :
    ∃ neg pos, xs = neg ++ pos ∧ (∀ x ∈ neg, x.1.view < 0) ∧ ∀ x ∈ pos, 0 ≤ x.1.view := by
  induction xs with
  | nil => exact ⟨[], [], rfl, by simp, by simp⟩
  | cons x xs ih =>
    obtain ⟨hx, hxs⟩ := List.pairwise_cons.1 hmono
    by_cases hv : 0 ≤ x.1.view
    · refine ⟨[], x :: xs, rfl, by simp, fun y hy => ?_⟩
      rcases List.mem_cons.1 hy with rfl | hy
      · exact hv
      · have := hx y hy
        unfold Feed.NotAfter at this
        omega
    · obtain ⟨neg, pos, rfl, hneg, hpos⟩ := ih hxs
      refine ⟨x :: neg, pos, rfl, fun y hy => ?_, hpos⟩
      rcases List.mem_cons.1 hy with rfl | hy
      · omega
      · exact hneg y hy

theorem split_after {neg pos pre post : List (Block D × Bool)} {x : Block D × Bool}
    (h : neg ++ pos = pre ++ x :: post) (hx : x ∉ neg) :
    ∃ p, pre = neg ++ p ∧ pos = p ++ x :: post := by
  rcases List.append_eq_append_iff.1 h with ⟨p, hp, hq⟩ | ⟨p, hp, hq⟩
  · exact ⟨p, hp, hq⟩
  · cases p with
    | nil =>
      rw [List.append_nil] at hp
      exact ⟨[], by rw [hp, List.append_nil], hq.symm⟩
    | cons y p =>
      rw [List.cons_append, List.cons.injEq] at hq
      exact absurd (hp ▸ List.mem_append_right _ (hq.1 ▸ List.mem_cons_self)) hx

/-! ## Two anchors, the second of which refers to the first -/

namespace TwoAnchors

/-- A committee of one. -/
def env : Env ℕ := Env.plain 1 fun _ => 0

def older : Block ℕ := ⟨0, 0, HEIGHT_1, ⟨-1, []⟩, none, []⟩

def newer : Block ℕ := ⟨0, 1, HEIGHT_1, ⟨-1, []⟩, none, [⟨0, HEIGHT_1, 0, older.hash env, []⟩]⟩

def store : Store ℕ := storeBlock env (storeBlock env (fun _ => none) older) newer

theorem store_cases {d : ℕ} {b : Block ℕ} (h : getBlock store d = some b) :
    d = newer.hash env ∧ b = newer ∨ d = older.hash env ∧ b = older := by
  simp only [getBlock, store, storeBlock, Function.update_apply] at h
  split at h
  · next hd => exact Or.inl ⟨hd, (Option.some.inj h).symm⟩
  · split at h
    · next hd => exact Or.inr ⟨hd, (Option.some.inj h).symm⟩
    · cases h

theorem resolved_newer : resolved store newer = [older] := by decide +kernel

theorem resolved_older : resolved store older = [] := rfl

/-- References lead down in this order. -/
def rank (b : Block ℕ) : ℕ := if b = older then 0 else if b = newer then 1 else 2

theorem rank_lt {b c : Block ℕ} (h : c ∈ resolved store b) : rank c < rank b := by
  obtain ⟨qc, -, hc⟩ := List.mem_filterMap.1 h
  have hb : b ≠ older := by
    rintro rfl
    rw [resolved_older] at h
    exact absurd h List.not_mem_nil
  rcases store_cases hc with ⟨-, rfl⟩ | ⟨-, rfl⟩
  · have hb' : b ≠ newer := by
      rintro rfl
      rw [resolved_newer] at h
      exact absurd (List.mem_singleton.1 h) (by decide)
    have hne : newer ≠ older := by decide
    simp [rank, hb, hb', hne]
  · have hpos : rank b ≠ 0 := by
      unfold rank
      rw [if_neg hb]
      split <;> decide
    have hzero : rank older = 0 := if_pos rfl
    omega

theorem dag : DagStore env store where
  own := by
    intro d b h
    rcases store_cases h with ⟨rfl, rfl⟩ | ⟨rfl, rfl⟩
    · rfl
    · rfl
  resolves := by
    intro d b h qc hqc
    rcases store_cases h with ⟨-, rfl⟩ | ⟨-, rfl⟩
    · rw [List.mem_singleton.1 hqc]
      decide +kernel
    · exact absurd hqc List.not_mem_nil
  acyclic := by
    intro b h
    have hlt : ∀ c, Relation.TransGen (fun b c => c ∈ resolved store b) b c → rank c < rank b := by
      intro c h
      induction h with
      | single h => exact rank_lt h
      | tail _ h ih => exact (rank_lt h).trans ih
    exact Nat.lt_irrefl _ (hlt b h)
  finite := by
    refine (Set.toFinite {newer.hash env, older.hash env}).subset fun d hd => ?_
    obtain ⟨b, hb⟩ := Option.isSome_iff_exists.1 hd
    rcases store_cases hb with ⟨h, -⟩ | ⟨h, -⟩
    · exact Or.inl h
    · exact Or.inr h

/-- The anchors, of which the second replica is given the newer one only. -/
def anchors : List (Block ℕ × Bool) := [(older, false), (newer, true)]

theorem stored : ∀ x ∈ anchors, Stored env store x.1 := by
  intro x hx
  simp only [anchors, List.mem_cons, List.not_mem_nil, or_false] at hx
  rcases hx with rfl | rfl
  · show getBlock store (older.hash env) = some older
    decide +kernel
  · show getBlock store (newer.hash env) = some newer
    decide +kernel

theorem ordered : anchors.Pairwise fun x y => Feed.NotAfter x.1 y.1 := by
  simp [anchors, Feed.NotAfter, older, newer]

theorem caught : Caught (resolved store) anchors := by
  intro pre a post h
  cases pre with
  | nil =>
    simp only [anchors, List.nil_append, List.cons.injEq, Prod.mk.injEq, and_true] at h
    obtain ⟨rfl, rfl⟩ := h
    refine ⟨[], newer, [], rfl, by simp, Relation.TransGen.single ?_⟩
    rw [resolved_newer]
    exact List.mem_singleton_self _
  | cons x pre =>
    cases pre with
    | nil => simp [anchors] at h
    | cons y pre => simp [anchors] at h

/-- The first replica is given both anchors. -/
theorem first : Feed.Reach (DAGCommitor.run env store)
    ⟨⟨1, HEIGHT_1, [newer.hash env, older.hash env], [], .idle⟩, [older, newer], [older, newer],
      [older, newer]⟩ := by
  refine Relation.ReflTransGen.trans
    (b := ⟨⟨0, HEIGHT_1, [], [older], .idle⟩, [older], [older], []⟩)
    (Relation.ReflTransGen.single (Or.inl (Feed.Commits.call (s := Feed.new) rfl))) ?_
  refine Relation.ReflTransGen.trans
    (b := ⟨⟨1, HEIGHT_1, [], [older, newer], .idle⟩, [older, newer], [older, newer], []⟩)
    (Relation.ReflTransGen.single (Or.inl (Feed.Commits.call rfl))) ?_
  refine Relation.ReflTransGen.head (Or.inr (Feed.Runs.step rfl)) ?_
  refine Relation.ReflTransGen.head (Or.inr (Feed.Runs.step rfl)) ?_
  refine Relation.ReflTransGen.head (Or.inr (Feed.Runs.step rfl)) ?_
  refine Relation.ReflTransGen.head (Or.inr (Feed.Runs.step rfl)) ?_
  refine Relation.ReflTransGen.head (Or.inr (Feed.Runs.step rfl)) ?_
  refine Relation.ReflTransGen.head (Or.inr (Feed.Runs.step rfl)) ?_
  exact Relation.ReflTransGen.single (Or.inr (Feed.Runs.step rfl))

/-- The second replica is given the newer anchor and finds the older one below it. -/
theorem second : Feed.Reach (DAGCommitor.run env store)
    ⟨⟨1, HEIGHT_1, [older.hash env, newer.hash env], [], .idle⟩, [newer], [newer],
      [newer, older]⟩ := by
  refine Relation.ReflTransGen.trans
    (b := ⟨⟨1, HEIGHT_1, [], [newer], .idle⟩, [newer], [newer], []⟩)
    (Relation.ReflTransGen.single (Or.inl (Feed.Commits.call (s := Feed.new) rfl))) ?_
  refine Relation.ReflTransGen.head (Or.inr (Feed.Runs.step rfl)) ?_
  refine Relation.ReflTransGen.head (Or.inr (Feed.Runs.step rfl)) ?_
  refine Relation.ReflTransGen.head (Or.inr (Feed.Runs.step rfl)) ?_
  exact Relation.ReflTransGen.single (Or.inr (Feed.Runs.step rfl))

end TwoAnchors

/-- **Order agreement of the DAG commitor.** The anchors `xs` come in the order of views and heights;
a first replica is given all of them, a second one those whose flag is set, and every anchor that the
second is not given lies in the causal history of the next one that it is given. Both replicas work
off what they are given, and then their logs are equal exactly if every anchor of a view from 0 on
that the second was not given is, or is in the causal history of, an earlier such anchor. -/
theorem dag_logs_agree_iff (hst : DagStore E st) (xs : List (Block D × Bool))
    (hstored : ∀ x ∈ xs, Stored E st x.1)
    (hmono : xs.Pairwise fun x y => Feed.NotAfter x.1 y.1) (hcaught : Caught (resolved st) xs) :
    (∃ s₁ s₂, Feed.Reach (DAGCommitor.run E st) s₁ ∧ s₁.calls = xs.map Prod.fst ∧
      Feed.Quiet (DAGCommitor.run E st) s₁ ∧ Feed.Reach (DAGCommitor.run E st) s₂ ∧
      s₂.calls = given xs ∧ Feed.Quiet (DAGCommitor.run E st) s₂) ∧
    ∀ s₁ s₂, Feed.Reach (DAGCommitor.run E st) s₁ → s₁.calls = xs.map Prod.fst →
      Feed.Quiet (DAGCommitor.run E st) s₁ → Feed.Reach (DAGCommitor.run E st) s₂ →
      s₂.calls = given xs → Feed.Quiet (DAGCommitor.run E st) s₂ →
      (s₁.log = s₂.log ↔ ∀ pre a post, xs = pre ++ (a, false) :: post → 0 ≤ a.view →
        ∃ x ∈ pre, 0 ≤ x.1.view ∧ Below (resolved st) x.1 a) := by
  have hall : ∀ b ∈ xs.map Prod.fst, Stored E st b := by
    intro b hb
    obtain ⟨x, hx, rfl⟩ := List.mem_map.1 hb
    exact hstored x hx
  have hsub : (given xs).Sublist (xs.map Prod.fst) := (List.filter_sublist).map _
  have hgiven : ∀ b ∈ given xs, Stored E st b := fun b hb => hall b (hsub.subset hb)
  have hmono₁ : (xs.map Prod.fst).Pairwise Feed.NotAfter := List.pairwise_map.2 hmono
  refine ⟨?_, fun s₁ s₂ hs₁ hc₁ hq₁ hs₂ hc₂ hq₂ => ?_⟩
  · obtain ⟨s₁, h₁⟩ := Feed.exists_reach_quiet hst _ hall
    obtain ⟨s₂, h₂⟩ := Feed.exists_reach_quiet hst _ hgiven
    exact ⟨s₁, s₂, h₁.1, h₁.2.1, h₁.2.2, h₂.1, h₂.2.1, h₂.2.2⟩
  · have hp₁ := Feed.Reach.passed_eq (fun _ _ _ => DAGCommitor.run_last) hs₁ (hc₁ ▸ hmono₁)
    have hp₂ := Feed.Reach.passed_eq (fun _ _ _ => DAGCommitor.run_last) hs₂ (hc₂ ▸ hmono₁.sublist hsub)
    have hl₁ := Feed.serves_of_quiet (Feed.Reach.dagInv hst hs₁ (hc₁ ▸ hall)) hq₁
    have hl₂ := Feed.serves_of_quiet (Feed.Reach.dagInv hst hs₂ (hc₂ ▸ hgiven)) hq₂
    obtain ⟨neg, pos, rfl, hneg, hpos⟩ := exists_split_view hmono
    have hfn : neg.filter (fun x => decide (0 ≤ x.1.view)) = [] := by
      rw [List.filter_eq_nil_iff]
      intro x hx
      have := hneg x hx
      simp only [decide_eq_true_eq]
      omega
    have hfp : pos.filter (fun x => decide (0 ≤ x.1.view)) = pos := by
      rw [List.filter_eq_self]
      exact fun x hx => decide_eq_true (hpos x hx)
    have hpass₁ : s₁.passed = pos.map Prod.fst := by
      rw [hp₁, hc₁, List.filter_map]
      simp only [Function.comp_def, List.filter_append, hfn, hfp, List.nil_append]
    have hpass₂ : s₂.passed = given pos := by
      rw [hp₂, hc₂, given, List.filter_map, List.filter_filter]
      simp only [Function.comp_def, List.filter_append]
      simp only [Bool.and_comm _ (Prod.snd _), ← List.filter_filter, hfn, hfp]
      rfl
    rw [hpass₁] at hl₁
    rw [hpass₂] at hl₂
    rw [serves_eq_iff hst.acyclic hcaught.right (fun b hb => absurd hb List.not_mem_nil) hl₁ hl₂]
    constructor
    · intro h pre a post hx ha
      obtain ⟨p, rfl, hp⟩ := split_after hx fun hm => absurd (hneg _ hm) (by simp only; omega)
      rcases h p a post hp with hn | ⟨x, hx, hxa⟩
      · exact absurd hn List.not_mem_nil
      · exact ⟨x, List.mem_append_right _ hx, hpos x (hp ▸ List.mem_append_left _ hx), hxa⟩
    · intro h pre a post hx
      have ha : 0 ≤ a.view := hpos (a, false) (by rw [hx]; simp)
      obtain ⟨x, hxm, hxv, hxa⟩ := h (neg ++ pre) a post (by rw [hx, List.append_assoc]) ha
      rcases List.mem_append.1 hxm with hxm | hxm
      · have := hneg x hxm
        omega
      · exact Or.inr ⟨x, hxm, hxa⟩

theorem dag_logs_agree_iff_two_anchors :
    ∃ s₁ s₂ : Feed ℕ, s₁.calls = [TwoAnchors.older, TwoAnchors.newer] ∧
      s₂.calls = [TwoAnchors.newer] ∧ s₁.log ≠ s₂.log := by
  obtain ⟨⟨s₁, s₂, h₁, hc₁, hq₁, h₂, hc₂, hq₂⟩, hiff⟩ := dag_logs_agree_iff TwoAnchors.dag
    TwoAnchors.anchors TwoAnchors.stored TwoAnchors.ordered TwoAnchors.caught
  refine ⟨s₁, s₂, hc₁, hc₂, fun heq => ?_⟩
  obtain ⟨x, hx, -⟩ := (hiff s₁ s₂ h₁ hc₁ hq₁ h₂ hc₂ hq₂).1 heq [] TwoAnchors.older
    [(TwoAnchors.newer, true)] rfl (by decide)
  exact absurd hx List.not_mem_nil

/-- Two replicas that disagree: the one that has committed the older anchor in its view has emitted it
first, the one that skipped it emits it last. -/
theorem dag_logs_differ :
    ∃ (E : Env ℕ) (st : Store ℕ) (xs : List (Block ℕ × Bool)) (s₁ s₂ : Feed ℕ), DagStore E st ∧
      (∀ x ∈ xs, Stored E st x.1) ∧ (xs.Pairwise fun x y => Feed.NotAfter x.1 y.1) ∧
      Caught (resolved st) xs ∧
      Feed.Reach (DAGCommitor.run E st) s₁ ∧ s₁.calls = xs.map Prod.fst ∧
      Feed.Quiet (DAGCommitor.run E st) s₁ ∧
      Feed.Reach (DAGCommitor.run E st) s₂ ∧ s₂.calls = given xs ∧
      Feed.Quiet (DAGCommitor.run E st) s₂ ∧
      s₁.log = [TwoAnchors.older, TwoAnchors.newer] ∧
      s₂.log = [TwoAnchors.newer, TwoAnchors.older] := by
  exact ⟨TwoAnchors.env, TwoAnchors.store, TwoAnchors.anchors, _, _, TwoAnchors.dag,
    TwoAnchors.stored, TwoAnchors.ordered, TwoAnchors.caught, TwoAnchors.first, rfl, rfl,
    TwoAnchors.second, rfl, rfl, rfl, rfl⟩

end S2Pac
