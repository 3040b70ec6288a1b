import S2Pac.Core
import S2Pac.NodePool

/-!
# The instances of the lean protocol as a pool of goroutines

What a step of a goroutine does to its instance, what it leaves behind and what it sends (`JobStep`).
-/

set_option linter.unusedSectionVars false

namespace S2Pac

open Lib

variable {D : Type} [DecidableEq D]

namespace Core

variable (E : Env D) (self : NodeID)

/-- The jobs that `replay` starts again. -/
def waiting (s : SPB D) (height : ℕ) : List (SpbJob D) :=
  if height = HEIGHT_1 then s.unHandlePropose.map .propose
  else if height = HEIGHT_2 then s.unHandleFinVote.map .finVote
  else []

theorem mem_waiting {s : SPB D} {height : ℕ} {j : SpbJob D} (h : j ∈ waiting s height) :
    (height = HEIGHT_1 ∧ ∃ p ∈ s.unHandlePropose, j = .propose p) ∨
      (height = HEIGHT_2 ∧ ∃ fv ∈ s.unHandleFinVote, j = .finVote fv) := by
  unfold waiting at h
  split at h
  · next hh =>
    obtain ⟨p, hp, rfl⟩ := List.mem_map.1 h
    exact Or.inl ⟨hh, p, hp, rfl⟩
  · split at h
    · next hh =>
      obtain ⟨fv, hfv, rfl⟩ := List.mem_map.1 h
      exact Or.inr ⟨hh, fv, hfv, rfl⟩
    · exact absurd h List.not_mem_nil

theorem countP_waiting {s : SPB D} {height : ℕ} {Q : SpbJob D → Bool}
    (hp : height = HEIGHT_1 → ∀ p ∈ s.unHandlePropose, Q (.propose p) = false)
    (hf : height = HEIGHT_2 → ∀ fv ∈ s.unHandleFinVote, Q (.finVote fv) = false) :
    (waiting s height).countP Q = 0 := by
  refine List.countP_eq_zero.2 fun j hj => ?_
  rcases mem_waiting hj with ⟨hh, p, hmem, rfl⟩ | ⟨hh, fv, hmem, rfl⟩
  · simp [hp hh p hmem]
  · simp [hf hh fv hmem]

/-- The step panics: a certificate is missing where one is looked at, or a vote has a height that the
array does not have. -/
def Panics (k : Key) : SpbJob D → Prop
  | .propose p => p.height = HEIGHT_2 ∧ p.b.qc = none
  | .vote v => HEIGHT_2 < v.height
  | .finVote fv => fv.author = k.2 ∧ fv.view = k.1 ∧ fv.qc = none
  | _ => False

/-- **What a step of a goroutine of instance `k` does.** -/
inductive JobStep (k : Key) : SPB D → SpbJob D → SPB D → List (SpbJob D) → List (NodeOut D) → Prop
  | crash (s : SPB D) (j : SpbJob D) : Panics k j → JobStep k s j s [] []
  | proposeFirst (s : SPB D) (p : ProposeMsg D) : p.height = HEIGHT_1 →
      JobStep k s (.propose p) { s with
        preQc := p.b.qc
        blockHash := Function.update s.blockHash HEIGHT_1 (p.b.hash E) } [.replay p] []
  | proposeWait (s : SPB D) (p : ProposeMsg D) (qc : BlockQC D) : p.height = HEIGHT_2 →
      p.b.qc = some qc → s.blockHash HEIGHT_1 ≠ qc.parentBlockHash →
      JobStep k s (.propose p) { s with unHandlePropose := s.unHandlePropose ++ [p] } [] []
  | proposeSecond (s : SPB D) (p : ProposeMsg D) (qc : BlockQC D) : p.height = HEIGHT_2 →
      p.b.qc = some qc → s.blockHash HEIGHT_1 = qc.parentBlockHash →
      JobStep k s (.propose p) { s with
        blockQcs := Function.update s.blockQcs HEIGHT_1 (some qc)
        blockHash := Function.update s.blockHash HEIGHT_2 (p.b.hash E) } [.replay p] []
  | proposeOther (s : SPB D) (p : ProposeMsg D) : p.height ≠ HEIGHT_1 → p.height ≠ HEIGHT_2 →
      JobStep k s (.propose p) s [.replay p] []
  | replay (s : SPB D) (p : ProposeMsg D) :
      JobStep k s (.replay p) s (waiting s p.height) [.to k.2 (.vote (newVoteMsg E self p.b))]
  | vote (s : SPB D) (v : VoteMsg D) : v.height ≤ HEIGHT_2 →
      JobStep k s (.vote v)
        { s with voteNums := Function.update s.voteNums v.height (s.voteNums v.height + 1) }
        (if s.voteNums v.height + 1 = E.hightThreshold then [.quorum v] else []) []
  | quorumFirst (s : SPB D) (v : VoteMsg D) (batch : Batch) : v.height = HEIGHT_1 →
      JobStep k s (.quorum v) s [] [.bcast (.propose (newProposeMsg E self
        ⟨self, v.view, HEIGHT_2, batch, some (v.makeQC k), []⟩))]
  | quorumSecond (s : SPB D) (v : VoteMsg D) : v.height ≠ HEIGHT_1 →
      JobStep k s (.quorum v) s []
        [.bcast (.finVote (newFinVoteMsg E self k.1 (some (v.makeQC k))))]
  | finDrop (s : SPB D) (fv : FinVoteMsg D) : fv.author ≠ k.2 ∨ fv.view ≠ k.1 →
      JobStep k s (.finVote fv) s [] []
  | finWait (s : SPB D) (fv : FinVoteMsg D) (qc : BlockQC D) : fv.author = k.2 → fv.view = k.1 →
      fv.qc = some qc → s.blockHash HEIGHT_2 ≠ qc.parentBlockHash →
      JobStep k s (.finVote fv) { s with unHandleFinVote := s.unHandleFinVote ++ [fv] } [] []
  | finAccept (s : SPB D) (fv : FinVoteMsg D) (qc : BlockQC D) : fv.author = k.2 → fv.view = k.1 →
      fv.qc = some qc → s.blockHash HEIGHT_2 = qc.parentBlockHash →
      JobStep k s (.finVote fv)
        { s with blockQcs := Function.update s.blockQcs HEIGHT_2 (some qc) } []
        [.to k.2 (.speedVote (newSpeedVoteMsg E self qc))]
  | speedDrop (s : SPB D) (sv : SpeedVoteMsg D) : sv.proposer ≠ k.2 ∨ sv.view ≠ k.1 →
      JobStep k s (.speedVote sv) s [] []
  | speedVote (s : SPB D) (sv : SpeedVoteMsg D) : sv.proposer = k.2 → sv.view = k.1 →
      JobStep k s (.speedVote sv) { s with speedVoteNums := s.speedVoteNums + 1 }
        (if s.speedVoteNums + 1 = E.hightThreshold then [.speedCert] else []) []
  | speedCert (s : SPB D) : JobStep k s .speedCert { s with isSpeedCert := true } [] []

variable {E self}

/-- A job does what `JobStep` says to its instance and to the tasks, and panics only where `Panics` says
so. -/
theorem step_of_runJob {c : Node D (SpbJob D)} {k : Key} {j : SpbJob D} {r : Moved D (SpbJob D)}
    (h : runJob E self c k j = r) : ∃ s js, JobStep E self k (c.spbInstances k) j s js r.2 ∧
      c.Worked k s js [] (Panics k j) r.1 r.2 := by
  subst h
  have hsame := c.spb_self k
  have hnone := c.tasks_nil k
  cases j with
  | propose p =>
    simp only [runJob, processProposeMsg]
    split
    · next h => exact ⟨_, _, JobStep.proposeFirst _ p h, Node.Worked.upd rfl rfl (by simp)⟩
    · next h₁ =>
      split
      · next h₂ =>
        split
        · next hqc => exact ⟨_, _, JobStep.crash _ _ ⟨h₂, hqc⟩, Node.Worked.panic ⟨h₂, hqc⟩⟩
        · next qc hqc =>
          split
          · next hne =>
            exact ⟨_, _, JobStep.proposeWait _ p qc h₂ hqc hne, Node.Worked.upd rfl hnone (by simp)⟩
          · next heq =>
            exact ⟨_, _, JobStep.proposeSecond _ p qc h₂ hqc (not_not.1 heq),
              Node.Worked.upd rfl rfl (by simp)⟩
      · next h₂ =>
        exact ⟨_, _, JobStep.proposeOther _ p h₁ h₂, Node.Worked.upd hsame rfl (by simp)⟩
  | replay p =>
    exact ⟨_, _, JobStep.replay _ p,
      Node.Worked.upd hsame rfl (by simp [runJob, replay, Out.msg])⟩
  | vote v =>
    simp only [runJob, processVoteMsg]
    split
    · next hh => exact ⟨_, _, JobStep.crash _ _ hh, Node.Worked.panic hh⟩
    · next hh =>
      have hstep : JobStep E self k (c.spbInstances k) (.vote v) _ _ _ := .vote _ v (not_lt.1 hh)
      split
      · next hn =>
        rw [if_pos hn] at hstep
        exact ⟨_, _, hstep, Node.Worked.upd rfl rfl (by simp)⟩
      · next hn =>
        rw [if_neg hn] at hstep
        exact ⟨_, _, hstep, Node.Worked.upd rfl hnone (by simp)⟩
  | quorum v =>
    simp only [runJob, quorum]
    split
    · next h => exact ⟨_, _, JobStep.quorumFirst _ v _ h, Node.Worked.propose rfl⟩
    · next h =>
      exact ⟨_, _, JobStep.quorumSecond _ v h, Node.Worked.upd hsame hnone (by simp [Out.msg])⟩
  | finVote fv =>
    simp only [runJob, processFinVoteMsg]
    split
    · next h => exact ⟨_, _, JobStep.finDrop _ fv h, Node.Worked.upd hsame hnone (by simp)⟩
    · next h =>
      obtain ⟨ha, hv⟩ : fv.author = k.2 ∧ fv.view = k.1 := by simpa [not_or] using h
      split
      · next hqc => exact ⟨_, _, JobStep.crash _ _ ⟨ha, hv, hqc⟩, Node.Worked.panic ⟨ha, hv, hqc⟩⟩
      · next qc hqc =>
        split
        · next hne =>
          exact ⟨_, _, JobStep.finWait _ fv qc ha hv hqc hne, Node.Worked.upd rfl hnone (by simp)⟩
        · next heq =>
          exact ⟨_, _, JobStep.finAccept _ fv qc ha hv hqc (not_not.1 heq),
            Node.Worked.upd rfl hnone (by simp [Out.msg])⟩
  | speedVote sv =>
    simp only [runJob, processSpeedVoteMsg]
    split
    · next h => exact ⟨_, _, JobStep.speedDrop _ sv h, Node.Worked.upd hsame hnone (by simp)⟩
    · next h =>
      obtain ⟨ha, hv⟩ : sv.proposer = k.2 ∧ sv.view = k.1 := by simpa [not_or] using h
      have hstep : JobStep E self k (c.spbInstances k) (.speedVote sv) _ _ _ := .speedVote _ sv ha hv
      split
      · next hn =>
        rw [if_pos hn] at hstep
        exact ⟨_, _, hstep, Node.Worked.upd rfl rfl (by simp)⟩
      · next hn =>
        rw [if_neg hn] at hstep
        exact ⟨_, _, hstep, Node.Worked.upd rfl hnone (by simp)⟩
  | speedCert => exact ⟨_, _, JobStep.speedCert _, Node.Worked.upd rfl hnone (by simp [runJob])⟩

/-! ## The code of the goroutines -/

/-- The task that a message is handed to. -/
def spawn : Msg D → List (Key × SpbJob D)
  | .propose p => [((p.view, p.author), .propose p)]
  | .vote v => [((v.view, v.proposer), .vote v)]
  | .finVote fv => [((fv.view, fv.author), .finVote fv)]
  | .speedVote sv => [((sv.view, sv.proposer), .speedVote sv)]
  | _ => []

/-- What the main loop and the commitor put out. -/
def Other (o : NodeOut D) : Prop :=
  match o.msg with
  | some (.propose p) => p.height = HEIGHT_1
  | some (.vote _) => False
  | some (.finVote _) => False
  | some (.speedVote _) => False
  | _ => True

variable (E self) in
/-- The goroutines of the instances of node `self`. -/
def code : PoolCode Key (SPB D) (SpbJob D) (Msg D) (NodeOut D) where
  init := SPB.new E
  spawn := spawn
  step := JobStep E self
  other := Other

end Core

end S2Pac
