import S2Pac.BigSPB
import S2Pac.NodePool

/-!
# The instances of the big protocols as a pool of goroutines

What a step of a goroutine does to its instance, what it leaves behind and what it sends (`JobStep`),
over the few places where the two protocols differ (`Rules`).
-/

set_option linter.unusedSectionVars false

namespace S2Pac

open Lib

variable {D : Type} [DecidableEq D]

namespace BigSPB

/-- **Where the big protocols differ**: the test of a height-2 proposal, what follows a height-1
certificate, the instance that a speed vote is handed to, and the heights at which the main loop
proposes. -/
structure Rules (D : Type) where
  parentOk : SPB D → Block D → Option Bool
  next : NodeID → Key → VoteMsg D → List (BigJob D)
  speedKey : SpeedVoteMsg D → Key
  proposes : ℕ → Prop
  next_cases : ∀ self k v, ∀ j ∈ next self k v, j = .callBack ∨ (j = .newPropose v ∧ k.2 = self)
  next_length : ∀ self k v, (next self k v).length ≤ 1

/-- The big protocol. -/
def bigRules : Rules D where
  parentOk := fun s b => b.qc.map fun qc => decide (s.blockHash HEIGHT_1 = qc.parentBlockHash)
  next := fun self k v => if k.2 = self then [.newPropose v] else []
  speedKey := fun sv => (sv.view, sv.author)
  proposes := fun height => height = HEIGHT_1
  next_cases := by
    intro self k v j hj
    split at hj
    · next hk => exact Or.inr ⟨List.mem_singleton.1 hj, hk⟩
    · exact absurd hj List.not_mem_nil
  next_length := by
    intro self k v
    split <;> simp

/-- The DAG variant. -/
def dagRules : Rules D where
  parentOk := fun _ _ => some true
  next := fun _ _ _ => [.callBack]
  speedKey := fun sv => (sv.view, sv.proposer)
  proposes := fun _ => True
  next_cases := fun _ _ _ _ hj => Or.inl (List.mem_singleton.1 hj)
  next_length := fun _ _ _ => le_rfl

/-- The jobs that `replay` starts again. -/
def waiting (s : SPB D) (height : ℕ) : List (BigJob D) :=
  if height = HEIGHT_1 then
    s.unHandlePropose.map BigJob.propose ++ (s.unHandleVote HEIGHT_1).map BigJob.vote
  else if height = HEIGHT_2 then (s.unHandleVote HEIGHT_2).map BigJob.vote
  else []

theorem mem_waiting {s : SPB D} {height : ℕ} {j : BigJob D} (h : j ∈ waiting s height) :
    (height = HEIGHT_1 ∧ ∃ p ∈ s.unHandlePropose, j = .propose p) ∨
      (height ≤ HEIGHT_2 ∧ ∃ v ∈ s.unHandleVote height, j = .vote v) := by
  unfold waiting at h
  split at h
  · next hh =>
    rcases List.mem_append.1 h with h | h
    · obtain ⟨p, hp, rfl⟩ := List.mem_map.1 h
      exact Or.inl ⟨hh, p, hp, rfl⟩
    · obtain ⟨v, hv, rfl⟩ := List.mem_map.1 h
      exact Or.inr ⟨hh ▸ Nat.zero_le _, v, hh ▸ hv, rfl⟩
  · split at h
    · next hh =>
      obtain ⟨v, hv, rfl⟩ := List.mem_map.1 h
      exact Or.inr ⟨hh.le, v, hh ▸ hv, rfl⟩
    · exact absurd h List.not_mem_nil

/-- The step panics: a height-2 proposal without a certificate where one is asked for, or a vote at a
height that the arrays do not have. -/
def Panics (V : Rules D) (s : SPB D) : BigJob D → Prop
  | .propose p => p.height = HEIGHT_2 ∧ V.parentOk s p.b = none
  | .vote v => HEIGHT_2 < v.height
  | _ => False

variable (E : Env D) (self : NodeID) (V : Rules D)

/-- **What a step of a goroutine of instance `k` does.** -/
inductive JobStep (k : Key) : SPB D → BigJob D → SPB D → List (BigJob D) → List (NodeOut D) → Prop
  | crash (s : SPB D) (j : BigJob D) : Panics V s j → JobStep k s j s [] []
  | proposeFirst (s : SPB D) (p : ProposeMsg D) : p.height = HEIGHT_1 →
      JobStep k s (.propose p) { s with
        preQc := p.b.qc
        blockHash := Function.update s.blockHash HEIGHT_1 (p.b.hash E) } [.replay p] []
  | proposeWait (s : SPB D) (p : ProposeMsg D) : p.height = HEIGHT_2 →
      V.parentOk s p.b = some false →
      JobStep k s (.propose p) { s with unHandlePropose := s.unHandlePropose ++ [p] } [] []
  | proposeSecond (s : SPB D) (p : ProposeMsg D) : p.height = HEIGHT_2 →
      V.parentOk s p.b = some true →
      JobStep k s (.propose p)
        { s with blockHash := Function.update s.blockHash HEIGHT_2 (p.b.hash E) } [.replay p] []
  | proposeOther (s : SPB D) (p : ProposeMsg D) : p.height ≠ HEIGHT_1 → p.height ≠ HEIGHT_2 →
      JobStep k s (.propose p) s [.replay p] []
  | replay (s : SPB D) (p : ProposeMsg D) :
      JobStep k s (.replay p) s (waiting s p.height) [.bcast (.vote (newVoteMsg E self p.b))]
  | voteWait (s : SPB D) (v : VoteMsg D) : v.height ≤ HEIGHT_2 →
      s.blockHash v.height ≠ v.blockHash →
      JobStep k s (.vote v) { s with
        unHandleVote := Function.update s.unHandleVote v.height (s.unHandleVote v.height ++ [v]) }
        [] []
  | vote (s : SPB D) (v : VoteMsg D) : v.height ≤ HEIGHT_2 → s.blockHash v.height = v.blockHash →
      JobStep k s (.vote v) s [.count v] []
  | count (s : SPB D) (v : VoteMsg D) :
      JobStep k s (.count v)
        { s with voteNums := Function.update s.voteNums v.height (s.voteNums v.height + 1) }
        (if s.voteNums v.height + 1 = E.hightThreshold then [.quorum v] else []) []
  | quorumFirst (s : SPB D) (v : VoteMsg D) : v.height = HEIGHT_1 →
      JobStep k s (.quorum v)
        { s with blockQcs := Function.update s.blockQcs v.height (some (v.makeQC k)) }
        (V.next self k v) []
  | quorumSecond (s : SPB D) (v : VoteMsg D) : v.height = HEIGHT_2 →
      JobStep k s (.quorum v)
        { s with blockQcs := Function.update s.blockQcs v.height (some (v.makeQC k)) }
        [.replaySpeed] [.bcast (.speedVote (newSpeedVoteMsg E self (v.makeQC k)))]
  | quorumOther (s : SPB D) (v : VoteMsg D) : v.height ≠ HEIGHT_1 → v.height ≠ HEIGHT_2 →
      JobStep k s (.quorum v)
        { s with blockQcs := Function.update s.blockQcs v.height (some (v.makeQC k)) } [] []
  | newPropose (s : SPB D) (v : VoteMsg D) (batch : Batch) :
      JobStep k s (.newPropose v) s [] [.bcast (.propose (newProposeMsg E self
        ⟨self, v.view, HEIGHT_2, batch, some (v.makeQC k), []⟩))]
  | callBack (s : SPB D) : JobStep k s .callBack s [] []
  | replaySpeed (s : SPB D) :
      JobStep k s .replaySpeed s (s.unHandleSpeedVote.map BigJob.speedVote) []
  | speedDrop (s : SPB D) (sv : SpeedVoteMsg D) : sv.proposer ≠ k.2 ∨ sv.view ≠ k.1 →
      JobStep k s (.speedVote sv) s [] []
  | speedWait (s : SPB D) (sv : SpeedVoteMsg D) : sv.proposer = k.2 → sv.view = k.1 →
      s.blockQcs HEIGHT_2 = none →
      JobStep k s (.speedVote sv) { s with unHandleSpeedVote := s.unHandleSpeedVote ++ [sv] } [] []
  | speedVote (s : SPB D) (sv : SpeedVoteMsg D) : sv.proposer = k.2 → sv.view = k.1 →
      s.blockQcs HEIGHT_2 ≠ none → JobStep k s (.speedVote sv) s [.speedCount] []
  | speedCount (s : SPB D) :
      JobStep k s .speedCount { s with speedVoteNums := s.speedVoteNums + 1 }
        (if s.speedVoteNums + 1 = E.hightThreshold then [.speedCert] else []) []
  | speedCert (s : SPB D) : JobStep k s .speedCert { s with isSpeedCert := true } [] []

/-- The instances that a job sends to the channel of callbacks. -/
def calls (k : Key) : BigJob D → List Key
  | .callBack => [k]
  | _ => []

/-- The step `r` does what `JobStep` says to its instance and to the tasks, sends a callback when that is
its job, and panics only where `Panics` says so. -/
def Does (c : BigNode D) (k : Key) (j : BigJob D) (r : BigMoved D) : Prop :=
  ∃ s js, JobStep E self V k (c.spbInstances k) j s js r.2 ∧
    c.Worked k s js (calls k j) (Panics V (c.spbInstances k) j) r.1 r.2

variable {E self V} (c : BigNode D) (k : Key)

theorem does_propose (p : ProposeMsg D) :
    Does E self V c k (.propose p) (proposeWith E V.parentOk c k p) := by
  simp only [proposeWith]
  split
  · next h => exact ⟨_, _, JobStep.proposeFirst _ p h, Node.Worked.upd rfl rfl (by simp)⟩
  · next h₁ =>
    split
    · next h₂ =>
      split
      · next hok => exact ⟨_, _, JobStep.crash _ _ ⟨h₂, hok⟩, Node.Worked.panic ⟨h₂, hok⟩⟩
      · next hok =>
        exact ⟨_, _, JobStep.proposeWait _ p h₂ hok, Node.Worked.upd rfl (c.tasks_nil k) (by simp)⟩
      · next hok => exact ⟨_, _, JobStep.proposeSecond _ p h₂ hok, Node.Worked.upd rfl rfl (by simp)⟩
    · next h₂ =>
      exact ⟨_, _, JobStep.proposeOther _ p h₁ h₂, Node.Worked.upd (c.spb_self k) rfl (by simp)⟩

theorem does_replay (p : ProposeMsg D) : Does E self V c k (.replay p) (replay E self c k p) :=
  ⟨_, _, JobStep.replay _ p, Node.Worked.upd (c.spb_self k) rfl (by simp [replay, Out.msg])⟩

theorem does_vote (v : VoteMsg D) : Does E self V c k (.vote v) (processVoteMsg c k v) := by
  simp only [processVoteMsg]
  split
  · next hh => exact ⟨_, _, JobStep.crash _ _ hh, Node.Worked.panic hh⟩
  · next hh =>
    split
    · next hne =>
      exact ⟨_, _, JobStep.voteWait _ v (not_lt.1 hh) hne,
        Node.Worked.upd rfl (c.tasks_nil k) (by simp)⟩
    · next heq =>
      exact ⟨_, _, JobStep.vote _ v (not_lt.1 hh) (not_not.1 heq),
        Node.Worked.upd (c.spb_self k) rfl (by simp)⟩

theorem does_count (v : VoteMsg D) : Does E self V c k (.count v) (count E c k v) := by
  have hstep : JobStep E self V k (c.spbInstances k) (.count v) _ _ _ := .count _ v
  simp only [count]
  split
  · next hn =>
    rw [if_pos hn] at hstep
    exact ⟨_, _, hstep, Node.Worked.upd rfl rfl (by simp)⟩
  · next hn =>
    rw [if_neg hn] at hstep
    exact ⟨_, _, hstep, Node.Worked.upd rfl (c.tasks_nil k) (by simp)⟩

theorem does_quorum (v : VoteMsg D) :
    Does E self V c k (.quorum v) (quorumWith E self (V.next self k v) c k v) := by
  simp only [quorumWith]
  split
  · next h => exact ⟨_, _, JobStep.quorumFirst _ v h, Node.Worked.upd rfl rfl (by simp)⟩
  · next h₁ =>
    split
    · next h₂ =>
      exact ⟨_, _, JobStep.quorumSecond _ v h₂, Node.Worked.upd rfl rfl (by simp [Out.msg])⟩
    · next h₂ =>
      exact ⟨_, _, JobStep.quorumOther _ v h₁ h₂, Node.Worked.upd rfl (c.tasks_nil k) (by simp)⟩

theorem does_newPropose (v : VoteMsg D) :
    Does E self V c k (.newPropose v) (newPropose E self c k v) :=
  ⟨_, _, JobStep.newPropose _ v _, Node.Worked.propose rfl⟩

theorem does_callBack {r : BigMoved D} (h : DAGBigSPB.callBack c k = some r) :
    Does E self V c k .callBack r := by
  unfold DAGBigSPB.callBack at h
  split at h
  · cases h
    exact ⟨_, _, JobStep.callBack _, ⟨rfl, rfl, rfl, rfl, rfl, rfl, rfl, rfl, rfl, rfl, rfl, rfl⟩,
      c.spb_self k, c.tasks_nil k, rfl, rfl, .none rfl (by simp), Or.inr rfl⟩
  · cases h

theorem does_replaySpeed : Does E self V c k .replaySpeed
    (c.go k ((c.spbInstances k).unHandleSpeedVote.map .speedVote), []) :=
  ⟨_, _, JobStep.replaySpeed _, Node.Worked.upd (c.spb_self k) rfl (by simp)⟩

theorem does_speedVote (sv : SpeedVoteMsg D) :
    Does E self V c k (.speedVote sv) (processSpeedVoteMsg c k sv) := by
  simp only [processSpeedVoteMsg]
  split
  · next h =>
    exact ⟨_, _, JobStep.speedDrop _ sv h, Node.Worked.upd (c.spb_self k) (c.tasks_nil k) (by simp)⟩
  · next h =>
    obtain ⟨hp, hv⟩ : sv.proposer = k.2 ∧ sv.view = k.1 := by simpa [not_or] using h
    split
    · next hn =>
      exact ⟨_, _, JobStep.speedWait _ sv hp hv hn, Node.Worked.upd rfl (c.tasks_nil k) (by simp)⟩
    · next hn =>
      exact ⟨_, _, JobStep.speedVote _ sv hp hv hn, Node.Worked.upd (c.spb_self k) rfl (by simp)⟩

theorem does_speedCount : Does E self V c k .speedCount (speedCount E c k) := by
  have hstep : JobStep E self V k (c.spbInstances k) .speedCount _ _ _ := .speedCount _
  simp only [speedCount]
  split
  · next hn =>
    rw [if_pos hn] at hstep
    exact ⟨_, _, hstep, Node.Worked.upd rfl rfl (by simp)⟩
  · next hn =>
    rw [if_neg hn] at hstep
    exact ⟨_, _, hstep, Node.Worked.upd rfl (c.tasks_nil k) (by simp)⟩

theorem does_speedCert : Does E self V c k .speedCert
    (c.setSpb k { c.spbInstances k with isSpeedCert := true }, []) :=
  ⟨_, _, JobStep.speedCert _, Node.Worked.upd rfl (c.tasks_nil k) (by simp)⟩

theorem does_runJob {j : BigJob D} {r : BigMoved D} (h : runJob E self c k j = some r) :
    Does E self bigRules c k j r := by
  cases j with
  | propose p => cases h; exact does_propose c k p
  | replay p => cases h; exact does_replay c k p
  | vote v => cases h; exact does_vote c k v
  | count v => cases h; exact does_count c k v
  | quorum v => cases h; exact does_quorum c k v
  | newPropose v => cases h; exact does_newPropose c k v
  | callBack => cases h
  | replaySpeed => cases h; exact does_replaySpeed c k
  | speedVote sv => cases h; exact does_speedVote c k sv
  | speedCount => cases h; exact does_speedCount c k
  | speedCert => cases h; exact does_speedCert c k

theorem does_runJob_dag {j : BigJob D} {r : BigMoved D}
    (h : DAGBigSPB.runJob E self c k j = some r) : Does E self dagRules c k j r := by
  cases j with
  | propose p => cases h; exact does_propose c k p
  | replay p => cases h; exact does_replay c k p
  | vote v => cases h; exact does_vote c k v
  | count v => cases h; exact does_count c k v
  | quorum v => cases h; exact does_quorum c k v
  | newPropose v => cases h
  | callBack => exact does_callBack c k h
  | replaySpeed => cases h; exact does_replaySpeed c k
  | speedVote sv => cases h; exact does_speedVote c k sv
  | speedCount => cases h; exact does_speedCount c k
  | speedCert => cases h; exact does_speedCert c k

/-! ## The code of the goroutines -/

/-- The task that a message is handed to. -/
def spawn (V : Rules D) : Msg D → List (Key × BigJob D)
  | .propose p => [((p.view, p.author), .propose p)]
  | .vote v => [((v.view, v.proposer), .vote v)]
  | .speedVote sv => [(V.speedKey sv, .speedVote sv)]
  | _ => []

/-- What the main loop and the commitor put out. -/
def Other (V : Rules D) (o : NodeOut D) : Prop :=
  match o.msg with
  | some (.propose p) => V.proposes p.height
  | some (.vote _) => False
  | some (.finVote _) => False
  | some (.speedVote _) => False
  | _ => True

variable (E self V) in
/-- The goroutines of the instances of node `self`. -/
def code : PoolCode Key (SPB D) (BigJob D) (Msg D) (NodeOut D) where
  init := SPB.new E
  spawn := spawn V
  step := JobStep E self V
  other := Other V

end BigSPB

end S2Pac
