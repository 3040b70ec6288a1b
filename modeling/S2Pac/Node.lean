import S2Pac.Lib.Network
import S2Pac.Commitor
import S2Pac.Elector

/-!
# The state of a node

The instances (`SPB`, `BigSPB`, `DAGBigSPB`), the nodes (`Core`, `BigCore`, `DAGBigCore`) and what
their main loops have in common.

A node runs its main loop, a goroutine for every message handed to an instance, and its commitor.
These are cut into steps at their accesses to what they share: a section under `hMutex` or `uMutex`,
one operation on an atomic, one on a channel. A send that follows such an access belongs to the same
step, since a message may be on its way for as long as one likes. `tasks` holds the goroutines of the
instances with what they have still to do, and `pc` says where the main loop is inside a handler.

The instance types differ in the buffers they keep and the node types in a few counters; one record
holds all of them, and what a variant does not have keeps its initial value there. The `Proposer` and
`View` of an instance are its key in `spbInstances`.

The counters are natural numbers and the views integers, without an end. In the code votes are counted in an
`atomic.Int32` and views are `int`s, so that this is the code below `2 ^ 31` votes for a block and `2 ^ 63`
views.
-/

namespace S2Pac

open Lib

variable {D J : Type}

/-- The key of an instance: its view and its proposer. -/
abbrev Key : Type := ℤ × NodeID

structure SPB (D : Type) where
  preQc : Option (BlockQC D)
  blockHash : ℕ → D
  blockQcs : ℕ → Option (BlockQC D)
  unHandlePropose : List (ProposeMsg D)
  unHandleFinVote : List (FinVoteMsg D)
  unHandleVote : ℕ → List (VoteMsg D)
  unHandleSpeedVote : List (SpeedVoteMsg D)
  voteNums : ℕ → ℕ
  speedVoteNums : ℕ
  isSpeedCert : Bool

namespace SPB

/-- `NewSPB`, `NewBigSPB`, `NewDAGBigSPB`. -/
def new (E : Env D) : SPB D :=
  ⟨none, fun _ => E.zero, fun _ => none, [], [], fun _ => [], [], fun _ => 0, 0, false⟩

def speedCert (s : SPB D) : Bool := s.isSpeedCert

def decCert (s : SPB D) : Bool := (s.blockQcs HEIGHT_1).isSome && (s.blockQcs HEIGHT_2).isSome

/-- `QCLEvel`: the level that is reported for the instance, and the certificate. -/
def qcLEvel (s : SPB D) : ℕ × Option (BlockQC D) :=
  if (s.blockQcs HEIGHT_1).isSome ∧ (s.blockQcs HEIGHT_2).isSome then
    (LEVEL_2, s.blockQcs HEIGHT_2)
  else if (s.blockQcs HEIGHT_1).isSome then (LEVEL_1, s.blockQcs HEIGHT_1)
  else (LEVEL_0, s.preQc)

end SPB

/-- The certificate that `processVoteMsg` makes of the vote that completes a quorum of instance
`k`. -/
def VoteMsg.makeQC (k : Key) (v : VoteMsg D) : BlockQC D :=
  ⟨k.1, v.height, v.proposer, v.blockHash, []⟩

/-- Where the main loop is. -/
inductive Pc (D : Type) where
  /-- At the head of the loop. -/
  | idle
  /-- In `processCoin`, before `SpeedCert()`. -/
  | coin (leader : NodeID) (view : ℤ)
  /-- `SpeedCert()` was false; before the second test. -/
  | decide (leader : NodeID) (view : ℤ)
  /-- A test succeeded; before `BlockHash(height)` and `getBlock`. -/
  | fetch (leader : NodeID) (view : ℤ) (height : ℕ)
  /-- Before `Commit(b)`. -/
  | commit (leader : NodeID) (view : ℤ) (height : ℕ) (b : Block D)
  /-- The rest of `processCoin`: the report, or the next view of the DAG variant. -/
  | report (leader : NodeID) (view : ℤ)
  /-- In `advanceView(view, height)` of the DAG variant, before the `i`-th instance is asked for its
  certificate; `refs` are those collected. -/
  | gather (view : ℤ) (height : ℕ) (i : ℕ) (refs : List (BlockQC D))

/-- What a node does besides sending messages. -/
inductive Event (D : Type) where
  /-- `processCoin(leader, view)` hands the block to `Commit`, found by its hash at `height`. -/
  | handed (leader : NodeID) (view : ℤ) (height : ℕ) (b : Block D)
  /-- The commitor emits the block. -/
  | emit (b : Block D)

/-- The state of a node whose instance goroutines do jobs of type `J`. -/
structure Node (D J : Type) where
  view : ℤ
  height : ℕ
  store : Store D
  bcnt : ℕ
  batchChannel : List Batch
  eletor : Elector
  commitor : Commitor D
  coinViewFlags : ℤ → Bool
  spbInstances : Key → SPB D
  finVoteNums : ℤ → List NodeID
  speedVoteNums : ℤ → NodeID → ℕ
  weakVotes : ℤ → NodeID → ℕ
  reportNums : ℤ → ℕ → ℕ
  callBackSpb : List Key
  pc : Pc D
  tasks : List (Key × J)
  booted : Bool
  crashed : Bool

/-- What a node puts out. -/
abbrev NodeOut (D : Type) : Type := Out NodeID (Msg D) (Event D)

/-- A node after a step, with what it has put out. -/
abbrev Moved (D J : Type) : Type := Node D J × List (NodeOut D)

/-- What can happen at a node besides the arrival of a message. -/
inductive Act where
  /-- `Run` is entered. -/
  | boot
  /-- The `i`-th goroutine takes a step. -/
  | task (i : ℕ)
  /-- The main loop takes a step inside a handler. -/
  | main
  /-- The main loop of the DAG variant takes an instance off `callBackSpb`. -/
  | callback
  /-- The commitor takes a step. -/
  | commitor
  /-- The transaction pool has made a batch. -/
  | makeBatch (txs : List Bytes)
  deriving DecidableEq

namespace Node

/-- `NewCore`, `NewBigCore`, `NewDAGBigCore`. -/
def new (E : Env D) : Node D J where
  view := 0
  height := HEIGHT_1
  store := fun _ => none
  bcnt := 0
  batchChannel := []
  eletor := Elector.new
  commitor := Commitor.new
  coinViewFlags := fun _ => false
  spbInstances := fun _ => SPB.new E
  finVoteNums := fun _ => []
  speedVoteNums := fun _ _ => 0
  weakVotes := fun _ _ => 0
  reportNums := fun _ _ => 0
  callBackSpb := []
  pc := .idle
  tasks := []
  booted := false
  crashed := false

/-- A panic in any goroutine ends the process. -/
def crash (c : Node D J) : Node D J := { c with crashed := true }

/-- `go spb.f(…)`. -/
def go (c : Node D J) (k : Key) (jobs : List J) : Node D J :=
  { c with tasks := c.tasks ++ jobs.map fun j => (k, j) }

def setSpb (c : Node D J) (k : Key) (s : SPB D) : Node D J :=
  { c with spbInstances := Function.update c.spbInstances k s }

/-- `Pool.GetBatch`: a batch if there is one, and otherwise the empty batch with the id `-1`. A call is one
step here. Of two that overlap in the code, one may have to wait for the next batch. -/
def getBatch (c : Node D J) : Batch × Node D J :=
  match c.batchChannel with
  | [] => (⟨-1, []⟩, c)
  | b :: rest => (b, { c with batchChannel := rest })

/-- `txQueue.make` at node `self`: the batch ids are `self`, `self + n`, `self + 2n`, … -/
def makeBatch (E : Env D) (self : NodeID) (c : Node D J) (txs : List Bytes) : Node D J :=
  { c with bcnt := c.bcnt + 1
           batchChannel := c.batchChannel ++ [⟨self + E.n * c.bcnt, txs⟩] }

/-- `generatorBlock` of the variants with parent links. -/
def generatorBlock (self : NodeID) (c : Node D J) (view : ℤ) (height : ℕ)
    (qc : Option (BlockQC D)) : Block D × Node D J :=
  (⟨self, view, height, c.getBatch.1, qc, []⟩, c.getBatch.2)

/-- `Run` up to its loop: the proposal of view 0. -/
def boot (E : Env D) (self : NodeID) (c : Node D J) : Option (Moved D J) :=
  if c.booted ∨ self < E.faults then none
  else
    let r := c.generatorBlock self c.view c.height none
    some ({ r.2 with booted := true }, [.bcast (.propose (newProposeMsg E self r.1))])

/-- The main loop is waiting for the next message. -/
def ready (c : Node D J) : Bool :=
  c.booted && !c.crashed && match c.pc with
    | .idle => true
    | _ => false

/-- The head of `handleReportMsg`: the report is counted at its level, and the second component says
whether the node may leave the view. -/
def countReport [DecidableEq D] (E : Env D) (c : Node D J) (r : ReportMsg D) : Node D J × Bool :=
  let nums := Function.update (c.reportNums r.view) r.level (c.reportNums r.view r.level + 1)
  ({ c with reportNums := Function.update c.reportNums r.view nums },
    decide (nums LEVEL_2 = 1 ∨ nums LEVEL_1 = E.hightThreshold ∨ nums LEVEL_0 = E.hightThreshold))

/-- What a handler does with the result of `Verify`. -/
def verified (c : Node D J) (ok : Option Bool) (k : Moved D J) : Moved D J :=
  match ok with
  | none => (c.crash, [])
  | some false => (c, [])
  | some true => k

/-- One step of `processCoin` up to its report; `second` is the test that is made when `SpeedCert()` is
false. -/
def stepCoin (second : Node D J → NodeID → ℤ → Bool) (c : Node D J) : Option (Moved D J) :=
  match c.pc with
  | .coin leader view =>
    if (c.spbInstances (view, leader)).speedCert then
      some ({ c with pc := .fetch leader view HEIGHT_2 }, [])
    else some ({ c with pc := .decide leader view }, [])
  | .decide leader view =>
    if second c leader view then some ({ c with pc := .fetch leader view HEIGHT_1 }, [])
    else some ({ c with pc := .report leader view }, [])
  | .fetch leader view height =>
    match getBlock c.store ((c.spbInstances (view, leader)).blockHash height) with
    | none => some ({ c with pc := .idle }, [])
    | some b => some ({ c with pc := .commit leader view height b }, [])
  | .commit leader view height b =>
    match c.commitor.commit b with
    | none => none
    | some cm => some ({ c with commitor := cm, pc := .report leader view },
        [.event (.handed leader view height b)])
  | _ => none

/-- A step of the commitor `run`. -/
def stepCommitor (run : Store D → Commitor D → Option (Commitor D × List (Block D)))
    (c : Node D J) : Option (Moved D J) :=
  match run c.store c.commitor with
  | none => none
  | some (cm, bs) => some ({ c with commitor := cm }, bs.map fun b => .event (.emit b))

end Node

end S2Pac
