import S2Pac.BigSPB

/-!
# The big protocol

`core/bigcore.go`, over the instances of `core/bigspb.go`. Unlike the lean protocol it filters no
message by its view, and it has no `FinVoteMsg` and no `RandomCoinMsg`.
-/

namespace S2Pac

open Lib

variable {D : Type} [DecidableEq D]

namespace BigCore

variable (E : Env D) (self : NodeID)

/-! ## The handlers of the main loop -/

def handleProposeMsg (c : BigNode D) (p : ProposeMsg D) : BigMoved D :=
  c.verified (p.verify E) <|
    ({ c with store := storeBlock E c.store p.b }.go (p.view, p.author) [.propose p], [])

def handleVoteMsg (c : BigNode D) (v : VoteMsg D) : BigMoved D :=
  c.verified (v.verify E) (c.go (v.view, v.proposer) [.vote v], [])

/-- The head of `handleSpeedVoteMsg`: the speed votes are counted by their authors, and the
`ElectMsg` goes out while the node has counted `HightThreshold()` of its own. -/
def countSpeedVote {J : Type} (c : Node D J) (sv : SpeedVoteMsg D) : Moved D J :=
  let nodes := Function.update (c.speedVoteNums sv.view) sv.author
    (c.speedVoteNums sv.view sv.author + 1)
  ({ c with speedVoteNums := Function.update c.speedVoteNums sv.view nodes },
    if nodes self = E.hightThreshold then [.bcast (.elect (newElectMsg E self sv.view))] else [])

/-- The instance is looked up by the author of the speed vote. -/
def handleSpeedVoteMsg (c : BigNode D) (sv : SpeedVoteMsg D) : BigMoved D :=
  c.verified (sv.verify E) <|
    ((countSpeedVote E self c sv).1.go (sv.view, sv.author) [.speedVote sv],
      (countSpeedVote E self c sv).2)

def handleElectMsg (c : BigNode D) (e : ElectMsg) : BigMoved D :=
  if !e.verify then (c, [])
  else
    match c.eletor.add E e with
    | none => (c.crash, [])
    | some (el, .error _) => ({ c with eletor := el }, [])
    | some (el, .ok leader) =>
      if leader = NONE then ({ c with eletor := el }, [])
      else ({ c with eletor := el, pc := .coin leader e.view }, [])

/-- `advanceView`: the next view, and the height-1 proposal of it. -/
def advanceView (c : BigNode D) (view : ℤ) (qc : Option (BlockQC D)) : BigMoved D :=
  if view ≤ c.view then (c, [])
  else
    let r := { c with view := view }.generatorBlock self view HEIGHT_1 qc
    (r.2, [.bcast (.propose (newProposeMsg E self r.1))])

def handleReportMsg (c : BigNode D) (r : ReportMsg D) : BigMoved D :=
  c.verified (r.verify E) <|
    if LEVEL_0 < r.level then (c.crash, [])
    else if (c.countReport E r).2 then
      advanceView E self (c.countReport E r).1 (r.view + 1) r.blockQc
    else ((c.countReport E r).1, [])

/-- The switch of `Run`; it has no case for the other messages. -/
def handle (c : BigNode D) : Msg D → BigMoved D
  | .propose p => handleProposeMsg E c p
  | .vote v => handleVoteMsg E c v
  | .finVote _ => (c, [])
  | .speedVote sv => handleSpeedVoteMsg E self c sv
  | .elect e => handleElectMsg E c e
  | .randomCoin _ => (c, [])
  | .report r => handleReportMsg E self c r

/-- One step of the main loop inside `processCoin`. -/
def main (c : BigNode D) : Option (BigMoved D) :=
  match c.pc with
  | .report leader view =>
    let lq := (c.spbInstances (view, leader)).qcLEvel
    some ({ c with pc := .idle }, [.bcast (.report (newReportMsg E self view lq.1 lq.2))])
  | _ => c.stepCoin fun c leader view => (c.spbInstances (view, leader)).decCert

/-! ## The machine -/

def recv (c : BigNode D) (m : Msg D) : Option (BigMoved D) :=
  if c.ready then some (handle E self c m) else none

def act (c : BigNode D) (a : Act) : Option (BigMoved D) :=
  if c.crashed then none
  else
    match a with
    | .boot => c.boot E self
    | .task i =>
      match c.tasks[i]? with
      | none => none
      | some (k, j) => BigSPB.runJob E self { c with tasks := c.tasks.eraseIdx i } k j
    | .main => main E self c
    | .callback => none
    | .commitor => c.stepCommitor (Commitor.run E)
    | .makeBatch txs => some (c.makeBatch E self txs, [])

/-- **The nodes of the big protocol.** -/
def machine : Machine NodeID (BigNode D) (Msg D) Act (Event D) where
  hosts := E.members
  nodup := E.members_nodup
  init := fun _ => Node.new E
  recv := recv E
  act := act E

theorem handle_of_recv {E : Env D} {self : NodeID} {c : BigNode D} {m : Msg D} {r : BigMoved D}
    (h : recv E self c m = some r) : c.ready = true ∧ handle E self c m = r := by
  unfold recv at h
  split at h
  · next hready => exact ⟨hready, Option.some.inj h⟩
  · cases h

end BigCore

end S2Pac
