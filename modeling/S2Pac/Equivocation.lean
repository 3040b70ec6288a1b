import S2Pac.Core.Rounds
import S2Pac.DAGBigCore.Rounds

/-!
# What a single node can be made to send

Local runs: a node that follows the code is handed any messages at all, in any order, while its
goroutines interleave in any way.
-/

set_option linter.unusedSectionVars false

namespace S2Pac

open Lib

variable {D : Type} [DecidableEq D]

/-! ## Proposals of the lean protocol -/

namespace Core

variable {E : Env D} {self : NodeID}
  {G : Machine.Guard NodeID (Node D (SpbJob D)) (Msg D) Act (Event D)}
  {h : NodeHost D (SpbJob D)}

/-- **The runs in which a node makes height-1 certificates of its own blocks only.** A vote is handed
to the instance of the proposer that it names, and `processVoteMsg` goes on to a height-2 proposal of
the node's own whosever instance it is. -/
def OwnQuorums : Machine.Guard NodeID (Node D (SpbJob D)) (Msg D) Act (Event D) :=
  fun self h x =>
    match x with
    | .act (.task i) => ∀ t ∈ h.st.tasks[i]?, Own self HEIGHT_1 t.1 t.2
    | _ => True

instance (height : ℕ) (k : Key) (j : SpbJob D) : Decidable (Own self height k j) := by
  unfold Own
  infer_instance

instance (i : NodeID) (h : NodeHost D (SpbJob D)) (x : Input (Msg D) Act) :
    Decidable (OwnQuorums i h x) :=
  match x with
  | .act (.task _) => by unfold OwnQuorums; infer_instance
  | .recv _ | .act .boot | .act .main | .act .callback | .act .commitor | .act (.makeBatch _) =>
    instDecidableTrue

end Core

namespace LeanNode

/-- A vote of node `author` for a block of `proposer` in view 0, at height 1. -/
def vote (author proposer : NodeID) : Input (Msg ℕ) Act :=
  .recv (.vote ⟨author, proposer, 7, 0, HEIGHT_1, []⟩)

/-- Three votes for a block of `proposer` are handed to a node, and it counts them. -/
def quorum (proposer : NodeID) : List (Input (Msg ℕ) Act) :=
  [1, 2, 3].map (vote · proposer) ++ List.replicate 4 (.act (.task 0))

/-- Node 0 is handed votes for its own block. -/
def own : NodeHost ℕ (SpbJob ℕ) :=
  (Core.machine (Env.plain 4 fun _ => 0)).feed Core.OwnQuorums 0
    ((Core.machine (Env.plain 4 fun _ => 0)).start 0) (.act .boot :: quorum 0)

/-- Node 0 is handed votes for blocks of nodes 1 and 2. -/
def others : NodeHost ℕ (SpbJob ℕ) :=
  (Core.machine (Env.plain 4 fun _ => 0)).feed Machine.anyInput 0
    ((Core.machine (Env.plain 4 fun _ => 0)).start 0) (.act .boot :: (quorum 1 ++ quorum 2))

end LeanNode

/-- **A node of the big protocols does not equivocate**, whatever it is handed, and in the DAG variant
its proposals come in the order of `(view, height)`. -/
theorem big_proposes_once (E : Env D) (self : NodeID) :
    (∀ h, (BigCore.machine E).Local Machine.anyInput self h → ∀ view height,
      h.outs.countP (Out.carries (Msg.isProposal view height)) ≤ 1) ∧
    ∀ h, (DAGBigCore.machine E).Local Machine.anyInput self h →
      (∀ view height, h.outs.countP (Out.carries (Msg.isProposal view height)) ≤ 1) ∧
        (proposalKeys h.outs).Pairwise Before := by
  refine ⟨fun h hl view height => ?_, fun h hl => ⟨fun view height => ?_, ?_⟩⟩
  · rw [countP_isProposal fun o ho p hm => (BigCore.signed hl ho hm).1]
    exact BigCore.propose_le_one hl view height
  · exact DAGBigCore.proposal_once hl view height
  · exact (DAGBigCore.ordered hl).sorted

namespace BigNode

/-- Votes of nodes 1, 2 and 3 for the height-1 block of `proposer`, whose hash is `hash`. -/
def votes (proposer : NodeID) (hash : ℕ) : List (Input (Msg ℕ) Act) :=
  [1, 2, 3].map fun author => .recv (.vote ⟨author, proposer, hash, 0, HEIGHT_1, []⟩)

/-- The height-1 block of `author` in view 0. -/
def firstBlock (author : NodeID) : Block ℕ := ⟨author, 0, HEIGHT_1, ⟨-1, []⟩, none, []⟩

/-- A node is handed the height-1 block of `author` and three votes for it. -/
def certified (author : NodeID) : List (Input (Msg ℕ) Act) :=
  .recv (.propose (newProposeMsg (Env.plain 4 fun _ => 0) author (firstBlock author))) ::
    votes author ((firstBlock author).hash (Env.plain 4 fun _ => 0)) ++
    List.replicate 12 (.act (.task 0))

/-- Node 0 of the big protocol gets its own block certified. -/
def big : NodeHost ℕ (BigJob ℕ) :=
  (BigCore.machine (Env.plain 4 fun _ => 0)).feed Machine.anyInput 0
    ((BigCore.machine (Env.plain 4 fun _ => 0)).start 0) (.act .boot :: certified 0)

/-- Node 0 of the DAG variant gets three certificates and goes on to height 2. -/
def dag : NodeHost ℕ (BigJob ℕ) :=
  (DAGBigCore.machine (Env.plain 4 fun _ => 0)).feed Machine.anyInput 0
    ((DAGBigCore.machine (Env.plain 4 fun _ => 0)).start 0)
    (.act .boot :: (certified 0 ++ certified 1 ++ certified 2 ++ [.act .callback] ++
      List.replicate 5 (.act .main)))

end BigNode

theorem big_proposes_once_four :
    (proposalKeys BigNode.big.outs = [(0, HEIGHT_1), (0, HEIGHT_2)] ∧
      BigNode.big.outs.countP (Out.carries (Msg.isProposal 0 HEIGHT_2)) ≤ 1) ∧
    proposalKeys BigNode.dag.outs = [(0, HEIGHT_1), (0, HEIGHT_2)] ∧
      (proposalKeys BigNode.dag.outs).Pairwise Before := by
  have hbig : (BigCore.machine (Env.plain 4 fun _ => 0)).Local Machine.anyInput 0 BigNode.big :=
    Machine.Local.start.steps (Machine.feed_sound _ _ _)
  have hdag : (DAGBigCore.machine (Env.plain 4 fun _ => 0)).Local Machine.anyInput 0 BigNode.dag :=
    Machine.Local.start.steps (Machine.feed_sound _ _ _)
  obtain ⟨hb, hd⟩ := big_proposes_once (Env.plain 4 fun _ => 0) 0
  exact ⟨⟨by decide +kernel, hb _ hbig 0 HEIGHT_2⟩, by decide +kernel, (hd _ hdag).2⟩

/-! ## Votes -/

/-- Two votes of node `self` for different blocks of one proposer, view and height. -/
structure DoubleVote (outs : List (NodeOut D)) (v v' : VoteMsg D) : Prop where
  sent : ∃ o ∈ outs, o.msg = some (.vote v)
  sent' : ∃ o ∈ outs, o.msg = some (.vote v')
  view : v.view = v'.view
  height : v.height = v'.height
  proposer : v.proposer = v'.proposer
  blockHash : v.blockHash ≠ v'.blockHash

/-- The proposals of two blocks with one author, view and height. -/
structure Conflict (E : Env D) (v v' : VoteMsg D) (p p' : ProposeMsg D) : Prop where
  view : p.b.view = v.view ∧ p'.b.view = v.view
  height : p.b.height = v.height ∧ p'.b.height = v.height
  author : p.b.author = v.proposer ∧ p'.b.author = v.proposer
  hash : p.b.hash E = v.blockHash ∧ p'.b.hash E = v'.blockHash

/-- Where every vote is for the block of a proposal that was received, two votes that do not go
together come of two proposals that do not. -/
theorem DoubleVote.conflict {E : Env D} (self : NodeID) {outs : List (NodeOut D)}
    {l : List (Msg D)}
    (hvoted : ∀ o ∈ outs, ∀ v, o.msg = some (.vote v) →
      ∃ p, Msg.propose p ∈ l ∧ v = newVoteMsg E self p.b)
    {v v' : VoteMsg D} (h : DoubleVote outs v v') :
    ∃ p p', Msg.propose p ∈ l ∧ Msg.propose p' ∈ l ∧ Conflict E v v' p p' := by
  obtain ⟨o, ho, hm⟩ := h.sent
  obtain ⟨o', ho', hm'⟩ := h.sent'
  obtain ⟨p, hp, hv⟩ := hvoted o ho v hm
  obtain ⟨p', hp', hv'⟩ := hvoted o' ho' v' hm'
  refine ⟨p, p', hp, hp', ⟨?_, ?_⟩, ⟨?_, ?_⟩, ⟨?_, ?_⟩, ⟨?_, ?_⟩⟩
  · rw [hv]; rfl
  · rw [h.view, hv']; rfl
  · rw [hv]; rfl
  · rw [h.height, hv']; rfl
  · rw [hv]; rfl
  · rw [h.proposer, hv']; rfl
  · rw [hv]; rfl
  · rw [hv']; rfl

/-- **A node votes twice only when it has received conflicting proposals**, in each of the three
protocols. -/
theorem double_vote_conflict (E : Env D) (self : NodeID) :
    (∀ h, (Core.machine E).Local Machine.anyInput self h → ∀ v v', DoubleVote h.outs v v' →
      ∃ p p', Msg.propose p ∈ h.received ∧ Msg.propose p' ∈ h.received ∧ Conflict E v v' p p') ∧
    (∀ h, (BigCore.machine E).Local Machine.anyInput self h → ∀ v v', DoubleVote h.outs v v' →
      ∃ p p', Msg.propose p ∈ h.received ∧ Msg.propose p' ∈ h.received ∧ Conflict E v v' p p') ∧
    ∀ h, (DAGBigCore.machine E).Local Machine.anyInput self h → ∀ v v', DoubleVote h.outs v v' →
      ∃ p p', Msg.propose p ∈ h.received ∧ Msg.propose p' ∈ h.received ∧ Conflict E v v' p p' := by
  refine ⟨fun h hl v v' hd => hd.conflict self fun o ho v hm => ?_,
    fun h hl v v' hd => hd.conflict self fun o ho v hm => ?_,
    fun h hl v v' hd => hd.conflict self fun o ho v hm => ?_⟩
  · obtain ⟨p, hp, -, hv⟩ := Core.voted hl ho hm
    exact ⟨p, hp, hv⟩
  · obtain ⟨p, hp, -, hv⟩ := BigCore.runs.voted hl ho hm
    exact ⟨p, hp, hv⟩
  · obtain ⟨p, hp, -, hv⟩ := DAGBigCore.runs.voted hl ho hm
    exact ⟨p, hp, hv⟩

namespace TwoBlocks

/-- The height-1 block of node 1 in view 0 with the batch `id`. -/
def block (id : ℤ) : Block ℕ := ⟨1, 0, HEIGHT_1, ⟨id, []⟩, none, []⟩

/-- A node is started and is handed two height-1 blocks of node 1. -/
def inputs : List (Input (Msg ℕ) Act) :=
  .act .boot :: ([-1, 1].map fun id =>
    .recv (.propose (newProposeMsg (Env.plain 4 fun _ => 0) 1 (block id)))) ++
    List.replicate 4 (.act (.task 0))

/-- The vote of node 0 for the block with the batch `id`. -/
def vote (id : ℤ) : VoteMsg ℕ := newVoteMsg (Env.plain 4 fun _ => 0) 0 (block id)

def lean : NodeHost ℕ (SpbJob ℕ) :=
  (Core.machine (Env.plain 4 fun _ => 0)).feed Machine.anyInput 0
    ((Core.machine (Env.plain 4 fun _ => 0)).start 0) inputs

def big : NodeHost ℕ (BigJob ℕ) :=
  (BigCore.machine (Env.plain 4 fun _ => 0)).feed Machine.anyInput 0
    ((BigCore.machine (Env.plain 4 fun _ => 0)).start 0) inputs

def dag : NodeHost ℕ (BigJob ℕ) :=
  (DAGBigCore.machine (Env.plain 4 fun _ => 0)).feed Machine.anyInput 0
    ((DAGBigCore.machine (Env.plain 4 fun _ => 0)).start 0) inputs

end TwoBlocks

/-- **A node can be made to vote twice**: it votes for both of two conflicting blocks. -/
theorem votes_twice :
    ((Core.machine (Env.plain 4 fun _ => 0)).Local Machine.anyInput 0 TwoBlocks.lean ∧
      DoubleVote TwoBlocks.lean.outs (TwoBlocks.vote (-1)) (TwoBlocks.vote 1)) ∧
    ((BigCore.machine (Env.plain 4 fun _ => 0)).Local Machine.anyInput 0 TwoBlocks.big ∧
      DoubleVote TwoBlocks.big.outs (TwoBlocks.vote (-1)) (TwoBlocks.vote 1)) ∧
    (DAGBigCore.machine (Env.plain 4 fun _ => 0)).Local Machine.anyInput 0 TwoBlocks.dag ∧
      DoubleVote TwoBlocks.dag.outs (TwoBlocks.vote (-1)) (TwoBlocks.vote 1) := by
  refine ⟨⟨Machine.Local.start.steps (Machine.feed_sound _ _ _), ?_⟩,
    ⟨Machine.Local.start.steps (Machine.feed_sound _ _ _), ?_⟩,
    Machine.Local.start.steps (Machine.feed_sound _ _ _), ?_⟩ <;>
  exact ⟨by decide +kernel, by decide +kernel, rfl, rfl, rfl, by decide +kernel⟩

theorem double_vote_conflict_four :
    ∃ p p', Msg.propose p ∈ TwoBlocks.lean.received ∧ Msg.propose p' ∈ TwoBlocks.lean.received ∧
      Conflict (Env.plain 4 fun _ => 0) (TwoBlocks.vote (-1)) (TwoBlocks.vote 1) p p' := by
  have hl : (Core.machine (Env.plain 4 fun _ => 0)).Local Machine.anyInput 0 TwoBlocks.lean :=
    Machine.Local.start.steps (Machine.feed_sound _ _ _)
  refine (double_vote_conflict (Env.plain 4 fun _ => 0) 0).1 _ hl _ _ ?_
  exact ⟨by decide +kernel, by decide +kernel, rfl, rfl, rfl, by decide +kernel⟩

end S2Pac
