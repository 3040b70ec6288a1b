import S2Pac.Core.Buffers

/-!
# An instance of the lean protocol at work

The courses of an instance with the goroutines of the lean protocol. These come to rest, and when all messages
have been handed over and none is left, the state and what was sent do not depend on the order.
-/

set_option linter.unusedSectionVars false

namespace S2Pac

open Lib

variable {D : Type} [DecidableEq D]

namespace Core

/-! ## The steps -/

/-- A goroutine of the lean protocol never waits. -/
abbrev step (E : Env D) (self : NodeID) (c : Node D (SpbJob D)) (k : Key) (j : SpbJob D) :
    Option (Moved D (SpbJob D)) := some (runJob E self c k j)

section Course

variable {E : Env D} {self : NodeID} {k : Key} {h₁ h₂ : D} {m : FinInputs D} {b b' : Bench D (SpbJob D)}
  {log : List (SpbJob D × List (NodeOut D))}

/-- The goroutines of a bench, with the log of what they did. -/
def poolOf (b : Bench D (SpbJob D)) (log : List (SpbJob D × List (NodeOut D))) :
    Pool Key (SPB D) (SpbJob D) (SpbJob D) (SpbJob D × List (NodeOut D)) :=
  ⟨b.node.spbInstances, b.node.tasks, b.handed, log⟩

/-- The log of a bench: what the goroutines of its instance did, and that all that was sent comes from
them. -/
structure Logs (E : Env D) (me : NodeID) (k : Key) (b : Bench D (SpbJob D))
    (log : List (SpbJob D × List (NodeOut D))) : Prop where
  serves : (serving E me k).Serves (poolOf b log)
  outs : b.outs = log.flatMap Prod.snd

theorem Logs.step (h : Logs E self k b log) (hw : Bench.Step (step E self) b b') :
    ∃ i j s js os, b.node.tasks[i]? = some (k, j) ∧
      JobStep E self k (b.node.spbInstances k) j s js os ∧
      poolOf b' (log ++ [(j, os)]) = ⟨Function.update b.node.spbInstances k s,
        b.node.tasks.eraseIdx i ++ js.map (k, ·), b.handed, log ++ [(j, os)]⟩ ∧
      Logs E self k b' (log ++ [(j, os)]) := by
  cases hw with
  | @job i k' j r hi hr =>
    obtain rfl : k' = k := h.serves.run.key logged_key _ (List.mem_of_getElem? hi)
    obtain ⟨s, js, hstep, hwork⟩ := step_of_runJob (Option.some.inj hr)
    have hjob := h.serves.job hi ⟨_, hstep, rfl⟩
    refine ⟨i, j, s, js, _, hi, hstep, ?_, ?_, ?_⟩
    · simp [poolOf, hwork.spb, hwork.tasks]
    · simpa [poolOf, hwork.spb, hwork.tasks] using hjob
    · simp [h.outs]

theorem logs_of_course (hb : Bench.Course (step E self) E self k b) : ∃ log, Logs E self k b log := by
  induction hb with
  | start => exact ⟨[], PoolCode.Serves.start, rfl⟩
  | hand j _ ih =>
    obtain ⟨log, h⟩ := ih
    exact ⟨log, h.serves.recv j, h.outs⟩
  | work _ hw ih =>
    obtain ⟨log, h⟩ := ih
    obtain ⟨_, j, _, _, os, -, -, -, h'⟩ := h.step hw
    exact ⟨log ++ [(j, os)], h'⟩
  | callback _ _ ih =>
    obtain ⟨log, h⟩ := ih
    exact ⟨log, h.serves, h.outs⟩
  | makeBatch txs _ ih =>
    obtain ⟨log, h⟩ := ih
    exact ⟨log, h.serves, h.outs⟩

theorem acc_of_course (hm : m.For E k h₁ h₂) (hb : Bench.Course (step E self) E self k b)
    (hl : b.handed.Subperm m.jobs) :
    Acc (fun b' b => Bench.Step (step E self) b b') b := by
  obtain ⟨log, h⟩ := logs_of_course hb
  refine acc_of_falls (N := remaining k)
    (M := fun b x => b.handed.Subperm m.jobs ∧ ∃ log, x = poolOf b log ∧ Logs E self k b log)
    ?_ ⟨hl, log, rfl, h⟩
  rintro b b' _ ⟨hl, log, rfl, h⟩ hw
  obtain ⟨i, j, s, js, os, hi, hstep, hpool, h'⟩ := h.step hw
  have hfalls := remaining_falls hm h.serves hl hi hstep
  refine ⟨poolOf b' (log ++ [(j, os)]), ⟨?_, _, rfl, h'⟩, ?_⟩
  · cases hw with
    | job _ _ => exact hl
  · rw [hpool]
    exact hfalls

theorem not_crashed_of_course (hm : m.For E k h₁ h₂) (hb : Bench.Course (step E self) E self k b)
    (hl : b.handed.Subperm m.jobs) : b.node.crashed = false := by
  induction hb with
  | start => rfl
  | hand j _ ih => exact ih ((List.sublist_append_left _ _).subperm.trans hl)
  | work hb hw ih =>
    obtain ⟨log, h⟩ := logs_of_course hb
    cases hw with
    | @job i k' j r hi hr =>
      obtain rfl : k' = k := h.serves.run.key logged_key _ (List.mem_of_getElem? hi)
      obtain ⟨_, _, -, hwork⟩ := step_of_runJob (Option.some.inj hr)
      have hfit := ((guarded hm).fits h.serves.run hl).1 j (List.mem_of_getElem? hi)
      exact (hwork.crashed.resolve_left (hfit.not_panics hm)).trans (ih hl)
  | callback _ _ ih => exact ih hl
  | makeBatch txs _ ih => exact ih hl

theorem tasks_of_quiet (h : ∀ b', ¬ Bench.Step (step E self) b b') : b.node.tasks = [] := by
  by_contra hne
  obtain ⟨⟨k, j⟩, ts, hts⟩ := List.exists_cons_of_ne_nil hne
  exact h _ (Bench.Step.job (i := 0) (k := k) (j := j) (by simp [hts]) rfl)

end Course

/-! ## The end of a course -/

/-- **How an instance ends** when it was handed the messages `m`. -/
structure Outcome (E : Env D) (me : NodeID) (k : Key) (h₁ h₂ : D) (m : FinInputs D)
    (b : Bench D (SpbJob D)) : Prop where
  crashed : b.node.crashed = false
  preQc : (b.node.spbInstances k).preQc = m.first.b.qc
  blockHash : (b.node.spbInstances k).blockHash HEIGHT_1 = h₁ ∧
    (b.node.spbInstances k).blockHash HEIGHT_2 = h₂
  blockQcs : (b.node.spbInstances k).blockQcs HEIGHT_1 = m.second.b.qc ∧
    (b.node.spbInstances k).blockQcs HEIGHT_2 = m.fin.qc
  voteNums : (b.node.spbInstances k).voteNums HEIGHT_1 = m.votes₁.length ∧
    (b.node.spbInstances k).voteNums HEIGHT_2 = m.votes₂.length
  speedVoteNums : (b.node.spbInstances k).speedVoteNums = m.speedVotes.length
  isSpeedCert : (b.node.spbInstances k).isSpeedCert = true ↔
    E.hightThreshold ≤ m.speedVotes.length
  votes : (b.outs.filter (Out.carries isVoteMsg)).Perm
    [.to k.2 (.vote (newVoteMsg E me m.first.b)), .to k.2 (.vote (newVoteMsg E me m.second.b))]
  speedVotes : b.outs.filter (Out.carries isSpeedVoteMsg) =
    m.fin.qc.toList.map fun qc => .to k.2 (.speedVote (newSpeedVoteMsg E me qc))
  proposals : b.outs.countP (Out.carries isSecondProposeMsg) =
    if E.hightThreshold ≤ m.votes₁.length then 1 else 0
  finVotes : b.outs.countP (Out.carries isFinVoteMsg) =
    if E.hightThreshold ≤ m.votes₂.length then 1 else 0

section Outcome

variable {E : Env D} {self : NodeID} {k : Key} {h₁ h₂ : D} {m : FinInputs D}
  {b : Bench D (SpbJob D)}

theorem outcome_of_course (hm : m.For E k h₁ h₂) (hb : Bench.Course (step E self) E self k b)
    (hl : b.handed.Perm m.jobs) (hrest : b.node.tasks = []) : Outcome E self k h₁ h₂ m b := by
  obtain ⟨log, h⟩ := logs_of_course hb
  have hx := h.serves
  have hsteps : ∀ e ∈ log, Fits m k e.1 ∧ ∃ s s' js, JobStep E self k s e.1 s' js e.2 :=
    ((guarded hm).fits hx.run hl.subperm).2.2
  have hfirst := rest_first hm hx hl hrest
  have hsecond := rest_second hm hx hl hrest
  have hvotes := rest_voteNums hm hx hl hrest
  have hcert := rest_certified hm hx hl hrest
  refine ⟨not_crashed_of_course hm hb hl.subperm, hfirst.1,
    ⟨hfirst.2.trans hm.first.2, hsecond.2.trans hm.second.2⟩,
    ⟨hsecond.1, rest_fin hm hx hl hrest⟩,
    ⟨(hvotes _).trans hm.countP_votes₁, (hvotes _).trans hm.countP_votes₂⟩,
    rest_speedVoteNums hm hx hl hrest, rest_speedCert hm hx hl hrest, ?_, ?_, ?_, ?_⟩
  · rw [h.outs, filter_flatMap_log fun e he => (hsteps e he).2.elim fun _ ⟨_, _, h⟩ => h.filter_votes]
    exact (rest_replayed hm hx hl hrest).map _
  · rw [h.outs, filter_flatMap_log fun e he => (hsteps e he).2.elim fun _ ⟨_, _, h⟩ => h.filter_speedVotes]
    exact congrArg _ (rest_acceptedQc hm hx hl hrest)
  · rw [h.outs, countP_flatMap_log (O := entryOf (toCertify HEIGHT_1)) fun e he =>
      (hsteps e he).2.elim fun _ ⟨_, _, h⟩ => h.countP_proposals, ← hm.countP_votes₁]
    exact hcert _
  · rw [h.outs, countP_flatMap_log (O := entryOf (toCertify HEIGHT_2)) fun e he =>
      (hsteps e he).2.elim fun _ ⟨_, _, h⟩ => h.countP_finVotes (hsteps e he).1, ← hm.countP_votes₂]
    exact hcert _

end Outcome

/-- **The buffers of the lean protocol lose and duplicate nothing.** An instance that has been handed its two
proposals, the `FinVoteMsg`, votes and speed votes, each once and in any order, comes to rest whatever its
goroutines do, and always with the same certificates, hashes and counts. It has then voted once for each
proposal, sent one speed vote, and one height-2 proposal and one `FinVoteMsg` where the votes reached the
threshold. -/
theorem lean_buffers_lossless (E : Env D) (self : NodeID) (k : Key) {h₁ h₂ : D} {m : FinInputs D}
    (hm : m.For E k h₁ h₂) (b : Bench D (SpbJob D)) (hb : Bench.Course (step E self) E self k b)
    (hl : b.handed.Perm m.jobs) :
    Acc (fun b' b => Bench.Step (step E self) b b') b ∧
      ((∀ b', ¬ Bench.Step (step E self) b b') → Outcome E self k h₁ h₂ m b) :=
  ⟨acc_of_course hm hb hl.subperm, fun hquiet => outcome_of_course hm hb hl (tasks_of_quiet hquiet)⟩

namespace Shuffled

/-- The height-1 block of node 1 in view 0. -/
def block₁ : Block ℕ := ⟨1, 0, HEIGHT_1, ⟨-1, []⟩, none, []⟩

def qc₁ : BlockQC ℕ := ⟨0, HEIGHT_1, 1, block₁.hash (Env.plain 4 fun _ => 0), []⟩

/-- The height-2 block on top of it. -/
def block₂ : Block ℕ := ⟨1, 0, HEIGHT_2, ⟨-1, []⟩, some qc₁, []⟩

def qc₂ : BlockQC ℕ := ⟨0, HEIGHT_2, 1, block₂.hash (Env.plain 4 fun _ => 0), []⟩

/-- The messages of node 1, three votes for the height-1 block, two for the other one, three speed votes. -/
def inputs : FinInputs ℕ where
  first := newProposeMsg (Env.plain 4 fun _ => 0) 1 block₁
  second := newProposeMsg (Env.plain 4 fun _ => 0) 1 block₂
  fin := newFinVoteMsg (Env.plain 4 fun _ => 0) 1 0 (some qc₂)
  votes₁ := [1, 2, 3].map fun i => newVoteMsg (Env.plain 4 fun _ => 0) i block₁
  votes₂ := [1, 2].map fun i => newVoteMsg (Env.plain 4 fun _ => 0) i block₂
  speedVotes := [1, 2, 3].map fun i => newSpeedVoteMsg (Env.plain 4 fun _ => 0) i qc₂

/-- They come last to first: the `FinVoteMsg` before the height-2 proposal and that before the height-1
proposal. -/
def bench : Bench ℕ (SpbJob ℕ) :=
  (Bench.handAll (0, 1) inputs.jobs.reverse (Bench.new (Env.plain 4 fun _ => 0))).work
    (step (Env.plain 4 fun _ => 0) 0) 40

end Shuffled

theorem lean_buffers_lossless_four :
    Outcome (Env.plain 4 fun _ => 0) 0 (0, 1) (Shuffled.block₁.hash (Env.plain 4 fun _ => 0))
        (Shuffled.block₂.hash (Env.plain 4 fun _ => 0)) Shuffled.inputs Shuffled.bench ∧
      (Shuffled.bench.node.spbInstances (0, 1)).unHandlePropose = [Shuffled.inputs.second] ∧
      (Shuffled.bench.node.spbInstances (0, 1)).unHandleFinVote = [Shuffled.inputs.fin] := by
  have hm : Shuffled.inputs.For (Env.plain 4 fun _ => 0) (0, 1)
      (Shuffled.block₁.hash (Env.plain 4 fun _ => 0)) (Shuffled.block₂.hash (Env.plain 4 fun _ => 0)) :=
    ⟨by decide, by decide, ⟨_, rfl, rfl⟩, by decide, ⟨_, rfl, rfl⟩, by decide, by decide, by decide⟩
  have hperm : Shuffled.inputs.jobs.reverse.Perm Shuffled.inputs.jobs := List.reverse_perm _
  have hspec : (Shuffled.bench.handed = Shuffled.inputs.jobs.reverse ∧ Shuffled.bench.node.tasks = []) ∧
      (Shuffled.bench.node.spbInstances (0, 1)).unHandlePropose = [Shuffled.inputs.second] ∧
      (Shuffled.bench.node.spbInstances (0, 1)).unHandleFinVote = [Shuffled.inputs.fin] := by
    decide +kernel
  have h := lean_buffers_lossless (Env.plain 4 fun _ => 0) 0 (0, 1) hm Shuffled.bench
    ((Bench.Course.start.handAll _).workAll _) (hspec.1.1 ▸ hperm)
  exact ⟨h.2 (Bench.not_step hspec.1.2), hspec.2⟩

end Core

end S2Pac
