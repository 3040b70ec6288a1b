import S2Pac.Node

/-!
# The lean protocol

`core/core.go` and `core/spb.go`. The proposer of an instance collects the votes for its blocks and
passes the certificates on: the height-1 certificate inside its height-2 block, the height-2
certificate in a `FinVoteMsg`.
-/

namespace S2Pac

open Lib

variable {D : Type} [DecidableEq D]

/-- What a goroutine of an instance has still to do. -/
inductive SpbJob (D : Type) where
  /-- `processProposeMsg`. -/
  | propose (p : ProposeMsg D)
  /-- `processProposeMsg` after its section under `hMutex`: the replay of a buffer, then the vote. -/
  | replay (p : ProposeMsg D)
  /-- `processVoteMsg`. -/
  | vote (v : VoteMsg D)
  /-- `processVoteMsg` after the counter has reached the threshold. -/
  | quorum (v : VoteMsg D)
  /-- `processFinVoteMsg`. -/
  | finVote (fv : FinVoteMsg D)
  /-- `processSpeedVoteMsg`. -/
  | speedVote (sv : SpeedVoteMsg D)
  /-- `processSpeedVoteMsg` after the counter has reached the threshold. -/
  | speedCert
  deriving DecidableEq

namespace Core

variable (E : Env D) (self : NodeID)

/-! ## The instance -/

/-- `processProposeMsg` under `hMutex`. -/
def processProposeMsg (c : Node D (SpbJob D)) (k : Key) (p : ProposeMsg D) : Moved D (SpbJob D) :=
  let s := c.spbInstances k
  if p.height = HEIGHT_1 then
    let s' := { s with preQc := p.b.qc
                       blockHash := Function.update s.blockHash HEIGHT_1 (p.b.hash E) }
    ((c.setSpb k s').go k [.replay p], [])
  else if p.height = HEIGHT_2 then
    match p.b.qc with
    | none => (c.crash, [])
    | some qc =>
      if s.blockHash HEIGHT_1 ≠ qc.parentBlockHash then
        (c.setSpb k { s with unHandlePropose := s.unHandlePropose ++ [p] }, [])
      else
        let s' := { s with blockQcs := Function.update s.blockQcs HEIGHT_1 (some qc)
                           blockHash := Function.update s.blockHash HEIGHT_2 (p.b.hash E) }
        ((c.setSpb k s').go k [.replay p], [])
  else (c.go k [.replay p], [])

/-- The rest of `processProposeMsg`: what waited for the proposal is started again, and the vote goes
to the proposer. -/
def replay (c : Node D (SpbJob D)) (k : Key) (p : ProposeMsg D) : Moved D (SpbJob D) :=
  let s := c.spbInstances k
  let waiting :=
    if p.height = HEIGHT_1 then s.unHandlePropose.map .propose
    else if p.height = HEIGHT_2 then s.unHandleFinVote.map .finVote
    else []
  (c.go k waiting, [.to k.2 (.vote (newVoteMsg E self p.b))])

/-- `processVoteMsg`: the counter. -/
def processVoteMsg (c : Node D (SpbJob D)) (k : Key) (v : VoteMsg D) : Moved D (SpbJob D) :=
  let s := c.spbInstances k
  if HEIGHT_2 < v.height then (c.crash, [])
  else
    let nums := s.voteNums v.height + 1
    let c' := c.setSpb k { s with voteNums := Function.update s.voteNums v.height nums }
    if nums = E.hightThreshold then (c'.go k [.quorum v], []) else (c', [])

/-- `processVoteMsg` at the threshold: the height-2 proposal, or the `FinVoteMsg`. -/
def quorum (c : Node D (SpbJob D)) (k : Key) (v : VoteMsg D) : Moved D (SpbJob D) :=
  if v.height = HEIGHT_1 then
    let r := c.generatorBlock self v.view HEIGHT_2 (some (v.makeQC k))
    (r.2, [.bcast (.propose (newProposeMsg E self r.1))])
  else (c, [.bcast (.finVote (newFinVoteMsg E self k.1 (some (v.makeQC k))))])

/-- `processFinVoteMsg`. -/
def processFinVoteMsg (c : Node D (SpbJob D)) (k : Key) (fv : FinVoteMsg D) : Moved D (SpbJob D) :=
  let s := c.spbInstances k
  if fv.author ≠ k.2 ∨ fv.view ≠ k.1 then (c, [])
  else
    match fv.qc with
    | none => (c.crash, [])
    | some qc =>
      if s.blockHash HEIGHT_2 ≠ qc.parentBlockHash then
        (c.setSpb k { s with unHandleFinVote := s.unHandleFinVote ++ [fv] }, [])
      else
        (c.setSpb k { s with blockQcs := Function.update s.blockQcs HEIGHT_2 (some qc) },
          [.to k.2 (.speedVote (newSpeedVoteMsg E self qc))])

/-- `processSpeedVoteMsg`: the counter. -/
def processSpeedVoteMsg (c : Node D (SpbJob D)) (k : Key) (sv : SpeedVoteMsg D) :
    Moved D (SpbJob D) :=
  let s := c.spbInstances k
  if sv.proposer ≠ k.2 ∨ sv.view ≠ k.1 then (c, [])
  else
    let nums := s.speedVoteNums + 1
    let c' := c.setSpb k { s with speedVoteNums := nums }
    if nums = E.hightThreshold then (c'.go k [.speedCert], []) else (c', [])

/-- One step of a goroutine of instance `k`. -/
def runJob (c : Node D (SpbJob D)) (k : Key) : SpbJob D → Moved D (SpbJob D)
  | .propose p => processProposeMsg E c k p
  | .replay p => replay E self c k p
  | .vote v => processVoteMsg E c k v
  | .quorum v => quorum E self c k v
  | .finVote fv => processFinVoteMsg E self c k fv
  | .speedVote sv => processSpeedVoteMsg E c k sv
  | .speedCert => (c.setSpb k { c.spbInstances k with isSpeedCert := true }, [])

/-! ## The handlers of the main loop -/

def messageFilter (c : Node D (SpbJob D)) (view : ℤ) : Prop := view < c.view

instance (c : Node D (SpbJob D)) (view : ℤ) : Decidable (messageFilter c view) := by
  unfold messageFilter; infer_instance

def handleProposeMsg (c : Node D (SpbJob D)) (p : ProposeMsg D) : Moved D (SpbJob D) :=
  c.verified (p.verify E) <| c.verified (p.verifyDocG E) <|
    let c' := { c with store := storeBlock E c.store p.b }
    if messageFilter c' p.view then (c', []) else (c'.go (p.view, p.author) [.propose p], [])

def handleVoteMsg (c : Node D (SpbJob D)) (v : VoteMsg D) : Moved D (SpbJob D) :=
  if messageFilter c v.view then (c, [])
  else c.verified (v.verify E) (c.go (v.view, v.proposer) [.vote v], [])

def handleFinVoteMsg (c : Node D (SpbJob D)) (fv : FinVoteMsg D) : Moved D (SpbJob D) :=
  if messageFilter c fv.view then (c, [])
  else c.verified (fv.verify E) <|
    let finVotes := (c.finVoteNums fv.view).insert fv.author
    let c' := { c with finVoteNums := Function.update c.finVoteNums fv.view finVotes }
    (c'.go (fv.view, fv.author) [.finVote fv],
      if finVotes.length = E.hightThreshold then [.bcast (.elect (newElectMsg E self fv.view))]
      else [])

def handleSpeedVoteMsg (c : Node D (SpbJob D)) (sv : SpeedVoteMsg D) : Moved D (SpbJob D) :=
  if messageFilter c sv.view then (c, [])
  else c.verified (sv.verify E) (c.go (sv.view, sv.proposer) [.speedVote sv], [])

/-- `processCoin` is entered. -/
def processCoin (c : Node D (SpbJob D)) (leader : NodeID) (view : ℤ) : Node D (SpbJob D) :=
  if c.coinViewFlags view then c else { c with pc := .coin leader view }

def handleElectMsg (c : Node D (SpbJob D)) (e : ElectMsg) : Moved D (SpbJob D) :=
  if messageFilter c e.view then (c, [])
  else if !e.verify then (c, [])
  else
    match c.eletor.add E e with
    | none => (c.crash, [])
    | some (el, .error _) => ({ c with eletor := el }, [])
    | some (el, .ok leader) =>
      if leader = NONE then ({ c with eletor := el }, [])
      else (processCoin { c with eletor := el } leader e.view,
        [.others (.randomCoin (newRandomCoinMsg E leader self e.view))])

def handleCoinMsg (c : Node D (SpbJob D)) (r : RandomCoinMsg) : Moved D (SpbJob D) :=
  c.verified (r.verify E) (processCoin c r.leader r.view, [])

/-- `advanceView`: the next view, and the height-1 proposal of it. -/
def advanceView (c : Node D (SpbJob D)) (view : ℤ) (qc : Option (BlockQC D))
    (docG : DocGQCMsg D) : Moved D (SpbJob D) :=
  if view ≤ c.view then (c, [])
  else
    let r := { c with view := view }.generatorBlock self view HEIGHT_1 qc
    (r.2, [.bcast (.propose { newProposeMsg E self r.1 with docG := some docG })])

def handleReportMsg (c : Node D (SpbJob D)) (r : ReportMsg D) : Moved D (SpbJob D) :=
  if messageFilter c r.view then (c, [])
  else c.verified (r.verify E) <|
    if LEVEL_0 < r.level then (c.crash, [])
    else if (c.countReport E r).2 then
      advanceView E self (c.countReport E r).1 (r.view + 1) r.blockQc ⟨r.view, r.level, []⟩
    else ((c.countReport E r).1, [])

/-- The switch of `Run`. -/
def handle (c : Node D (SpbJob D)) : Msg D → Moved D (SpbJob D)
  | .propose p => handleProposeMsg E c p
  | .vote v => handleVoteMsg E c v
  | .finVote fv => handleFinVoteMsg E self c fv
  | .speedVote sv => handleSpeedVoteMsg E c sv
  | .elect e => handleElectMsg E self c e
  | .randomCoin r => handleCoinMsg E c r
  | .report r => handleReportMsg E self c r

/-- One step of the main loop inside `processCoin`. -/
def main (c : Node D (SpbJob D)) : Option (Moved D (SpbJob D)) :=
  match c.pc with
  | .report leader view =>
    let lq := (c.spbInstances (view, leader)).qcLEvel
    some ({ c with pc := .idle, coinViewFlags := Function.update c.coinViewFlags view true },
      [.bcast (.report (newReportMsg E self view lq.1 lq.2))])
  | _ => c.stepCoin fun c leader view => (c.spbInstances (view, leader)).decCert

/-! ## The machine -/

def recv (c : Node D (SpbJob D)) (m : Msg D) : Option (Moved D (SpbJob D)) :=
  if c.ready then some (handle E self c m) else none

def act (c : Node D (SpbJob D)) (a : Act) : Option (Moved D (SpbJob D)) :=
  if c.crashed then none
  else
    match a with
    | .boot => c.boot E self
    | .task i =>
      match c.tasks[i]? with
      | none => none
      | some (k, j) => some (runJob E self { c with tasks := c.tasks.eraseIdx i } k j)
    | .main => main E self c
    | .callback => none
    | .commitor => c.stepCommitor (Commitor.run E)
    | .makeBatch txs => some (c.makeBatch E self txs, [])

/-- **The nodes of the lean protocol.** -/
def machine : Machine NodeID (Node D (SpbJob D)) (Msg D) Act (Event D) where
  hosts := E.members
  nodup := E.members_nodup
  init := fun _ => Node.new E
  recv := recv E
  act := act E

/-- Only a node at the top of its main loop takes a message, and the message goes to its handler. -/
theorem handle_of_recv {E : Env D} {self : NodeID} {c : Node D (SpbJob D)} {m : Msg D}
    {r : Moved D (SpbJob D)} (h : recv E self c m = some r) :
    c.ready = true ∧ handle E self c m = r := by
  unfold recv at h
  split at h
  · next hready => exact ⟨hready, Option.some.inj h⟩
  · cases h

end Core

end S2Pac
