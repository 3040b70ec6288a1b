import S2Pac.Node

/-!
# The instances of the big protocols

`core/bigspb.go` and `core/dag_bitspb.go`. Votes go to everybody and every node makes its own
certificates. The two files differ in two places, which are parameters here: what a height-2 proposal
is checked against before it is accepted, and what follows a height-1 certificate.
-/

namespace S2Pac

open Lib

variable {D : Type} [DecidableEq D]

/-- What a goroutine of an instance has still to do. -/
inductive BigJob (D : Type) where
  /-- `processProposeMsg`. -/
  | propose (p : ProposeMsg D)
  /-- `processProposeMsg` after its section under `hMutex`: the replay of the buffers, then the
  vote. -/
  | replay (p : ProposeMsg D)
  /-- `processVoteMsg`. -/
  | vote (v : VoteMsg D)
  /-- `processVoteMsg` after the hash was found right: the counter. -/
  | count (v : VoteMsg D)
  /-- `processVoteMsg` after the counter has reached the threshold: the certificate. -/
  | quorum (v : VoteMsg D)
  /-- The height-2 proposal of the big protocol. -/
  | newPropose (v : VoteMsg D)
  /-- `s.callBack <- s` of the DAG variant. -/
  | callBack
  /-- The replay of the buffered speed votes. -/
  | replaySpeed
  /-- `processSpeedVoteMsg`. -/
  | speedVote (sv : SpeedVoteMsg D)
  /-- `processSpeedVoteMsg` once there is a height-2 certificate: the counter. -/
  | speedCount
  /-- `processSpeedVoteMsg` after the counter has reached the threshold. -/
  | speedCert
  deriving DecidableEq

/-- The state of a node of the big protocols, and a step of one. -/
abbrev BigNode (D : Type) : Type := Node D (BigJob D)

abbrev BigMoved (D : Type) : Type := Moved D (BigJob D)

namespace BigSPB

variable (E : Env D) (self : NodeID)

/-! ## What the variants share -/

/-- `processProposeMsg` under `hMutex`. `parentOk` is the test of a height-2 proposal; `none` is a
panic. -/
def proposeWith (parentOk : SPB D → Block D → Option Bool) (c : BigNode D) (k : Key)
    (p : ProposeMsg D) : BigMoved D :=
  let s := c.spbInstances k
  if p.height = HEIGHT_1 then
    let s' := { s with preQc := p.b.qc
                       blockHash := Function.update s.blockHash HEIGHT_1 (p.b.hash E) }
    ((c.setSpb k s').go k [.replay p], [])
  else if p.height = HEIGHT_2 then
    match parentOk s p.b with
    | none => (c.crash, [])
    | some false => (c.setSpb k { s with unHandlePropose := s.unHandlePropose ++ [p] }, [])
    | some true =>
      let s' := { s with blockHash := Function.update s.blockHash HEIGHT_2 (p.b.hash E) }
      ((c.setSpb k s').go k [.replay p], [])
  else (c.go k [.replay p], [])

/-- The rest of `processProposeMsg`: what waited for the proposal is started again, and the vote goes
to everybody. -/
def replay (c : BigNode D) (k : Key) (p : ProposeMsg D) : BigMoved D :=
  let s := c.spbInstances k
  let waiting :=
    if p.height = HEIGHT_1 then
      s.unHandlePropose.map BigJob.propose ++ (s.unHandleVote HEIGHT_1).map BigJob.vote
    else if p.height = HEIGHT_2 then (s.unHandleVote HEIGHT_2).map BigJob.vote
    else []
  (c.go k waiting, [.bcast (.vote (newVoteMsg E self p.b))])

/-- `processVoteMsg` under `hMutex`. -/
def processVoteMsg (c : BigNode D) (k : Key) (v : VoteMsg D) : BigMoved D :=
  let s := c.spbInstances k
  if HEIGHT_2 < v.height then (c.crash, [])
  else if s.blockHash v.height ≠ v.blockHash then
    let waiting := s.unHandleVote v.height ++ [v]
    (c.setSpb k { s with unHandleVote := Function.update s.unHandleVote v.height waiting }, [])
  else (c.go k [.count v], [])

/-- `processVoteMsg`: the counter. -/
def count (c : BigNode D) (k : Key) (v : VoteMsg D) : BigMoved D :=
  let s := c.spbInstances k
  let nums := s.voteNums v.height + 1
  let c' := c.setSpb k { s with voteNums := Function.update s.voteNums v.height nums }
  if nums = E.hightThreshold then (c'.go k [.quorum v], []) else (c', [])

/-- `processVoteMsg` at the threshold: the certificate, and for a height-2 certificate the speed vote.
`next` is what follows a height-1 certificate. -/
def quorumWith (next : List (BigJob D)) (c : BigNode D) (k : Key) (v : VoteMsg D) : BigMoved D :=
  let s := c.spbInstances k
  let c' := c.setSpb k
    { s with blockQcs := Function.update s.blockQcs v.height (some (v.makeQC k)) }
  if v.height = HEIGHT_1 then (c'.go k next, [])
  else if v.height = HEIGHT_2 then
    (c'.go k [.replaySpeed], [.bcast (.speedVote (newSpeedVoteMsg E self (v.makeQC k)))])
  else (c', [])

/-- `processSpeedVoteMsg` under `hMutex`. -/
def processSpeedVoteMsg (c : BigNode D) (k : Key) (sv : SpeedVoteMsg D) : BigMoved D :=
  let s := c.spbInstances k
  if sv.proposer ≠ k.2 ∨ sv.view ≠ k.1 then (c, [])
  else if s.blockQcs HEIGHT_2 = none then
    (c.setSpb k { s with unHandleSpeedVote := s.unHandleSpeedVote ++ [sv] }, [])
  else (c.go k [.speedCount], [])

/-- `processSpeedVoteMsg`: the counter. -/
def speedCount (c : BigNode D) (k : Key) : BigMoved D :=
  let s := c.spbInstances k
  let nums := s.speedVoteNums + 1
  let c' := c.setSpb k { s with speedVoteNums := nums }
  if nums = E.hightThreshold then (c'.go k [.speedCert], []) else (c', [])

/-! ## The big protocol -/

/-- `BigSPB.processProposeMsg`: a height-2 block has to carry the certificate of the height-1 block. -/
def processProposeMsg (c : BigNode D) (k : Key) (p : ProposeMsg D) : BigMoved D :=
  proposeWith E
    (fun s b => b.qc.map fun qc => decide (s.blockHash HEIGHT_1 = qc.parentBlockHash)) c k p

/-- `BigSPB.processVoteMsg` at the threshold: the proposer goes on to height 2. -/
def quorum (c : BigNode D) (k : Key) (v : VoteMsg D) : BigMoved D :=
  quorumWith E self (if k.2 = self then [.newPropose v] else []) c k v

/-- The height-2 proposal. -/
def newPropose (c : BigNode D) (k : Key) (v : VoteMsg D) : BigMoved D :=
  let r := c.generatorBlock self v.view HEIGHT_2 (some (v.makeQC k))
  (r.2, [.bcast (.propose (newProposeMsg E self r.1))])

/-- One step of a goroutine of instance `k`; `none` while it is blocked. -/
def runJob (c : BigNode D) (k : Key) : BigJob D → Option (BigMoved D)
  | .propose p => some (processProposeMsg E c k p)
  | .replay p => some (replay E self c k p)
  | .vote v => some (processVoteMsg c k v)
  | .count v => some (count E c k v)
  | .quorum v => some (quorum E self c k v)
  | .newPropose v => some (newPropose E self c k v)
  | .callBack => none
  | .replaySpeed => some (c.go k ((c.spbInstances k).unHandleSpeedVote.map .speedVote), [])
  | .speedVote sv => some (processSpeedVoteMsg c k sv)
  | .speedCount => some (speedCount E c k)
  | .speedCert => some (c.setSpb k { c.spbInstances k with isSpeedCert := true }, [])

end BigSPB

/-! ## The DAG variant -/

namespace DAGBigSPB

variable (E : Env D) (self : NodeID)

/-- The capacity of `callBackSpb`. -/
def callBackCap : ℕ := 100

/-- `DAGBigSPB.processProposeMsg`: a height-2 block is accepted as it comes. -/
def processProposeMsg (c : BigNode D) (k : Key) (p : ProposeMsg D) : BigMoved D :=
  BigSPB.proposeWith E (fun _ _ => some true) c k p

/-- `DAGBigSPB.processVoteMsg` at the threshold: the main loop is told of a height-1 certificate. -/
def quorum (c : BigNode D) (k : Key) (v : VoteMsg D) : BigMoved D :=
  BigSPB.quorumWith E self [.callBack] c k v

/-- `s.callBack <- s`. -/
def callBack (c : BigNode D) (k : Key) : Option (BigMoved D) :=
  if c.callBackSpb.length < callBackCap then
    some ({ c with callBackSpb := c.callBackSpb ++ [k] }, [])
  else none

/-- One step of a goroutine of instance `k`; `none` while it is blocked. -/
def runJob (c : BigNode D) (k : Key) : BigJob D → Option (BigMoved D)
  | .propose p => some (processProposeMsg E c k p)
  | .replay p => some (BigSPB.replay E self c k p)
  | .vote v => some (BigSPB.processVoteMsg c k v)
  | .count v => some (BigSPB.count E c k v)
  | .quorum v => some (quorum E self c k v)
  | .newPropose _ => none
  | .callBack => callBack c k
  | .replaySpeed => some (c.go k ((c.spbInstances k).unHandleSpeedVote.map .speedVote), [])
  | .speedVote sv => some (BigSPB.processSpeedVoteMsg c k sv)
  | .speedCount => some (BigSPB.speedCount E c k)
  | .speedCert => some (c.setSpb k { c.spbInstances k with isSpeedCert := true }, [])

end DAGBigSPB

end S2Pac
