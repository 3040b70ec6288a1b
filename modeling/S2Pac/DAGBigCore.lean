import S2Pac.BigCore

/-!
# The DAG variant of the big protocol

`core/dag_bigcore.go`, over the instances of `core/dag_bitspb.go`. A block refers to the certificates
of the layer before it that its author holds, of which there have to be `HightThreshold()`: a height-2
block to height-1 certificates of its view, a height-1 block to height-2 certificates of the view
before. `getReference` asks the instances one after the other, while their goroutines go on.
-/

namespace S2Pac

open Lib

variable {D : Type} [DecidableEq D]

namespace DAGBigCore

variable (E : Env D) (self : NodeID)

/-! ## The handlers of the main loop -/

def addWeakVotes (weakVotes : ℤ → NodeID → ℕ) (view : ℤ) (node : NodeID) : ℤ → NodeID → ℕ :=
  Function.update weakVotes view
    (Function.update (weakVotes view) node (weakVotes view node + 1))

def getWeakVotes {J : Type} (c : Node D J) (view : ℤ) (node : NodeID) : ℕ := c.weakVotes view node

def handleProposeMsg (c : BigNode D) (p : ProposeMsg D) : BigMoved D :=
  c.verified (p.verify E) <| c.verified (p.verifyDocG E) <|
    let weakVotes :=
      if p.height = HEIGHT_2 then
        p.b.references.foldl (fun w qc => addWeakVotes w qc.view qc.proposer) c.weakVotes
      else c.weakVotes
    ({ c with store := storeBlock E c.store p.b, weakVotes := weakVotes }.go
      (p.view, p.author) [.propose p], [])

def handleVoteMsg (c : BigNode D) (v : VoteMsg D) : BigMoved D := BigCore.handleVoteMsg E c v

/-- The instance is looked up by the proposer of the speed vote. -/
def handleSpeedVoteMsg (c : BigNode D) (sv : SpeedVoteMsg D) : BigMoved D :=
  c.verified (sv.verify E) <|
    ((BigCore.countSpeedVote E self c sv).1.go (sv.view, sv.proposer) [.speedVote sv],
      (BigCore.countSpeedVote E self c sv).2)

def handleElectMsg (c : BigNode D) (e : ElectMsg) : BigMoved D := BigCore.handleElectMsg E c e

/-- The block of `(view, height)` is the next one of the node. -/
def isNext {J : Type} (c : Node D J) (view : ℤ) (height : ℕ) : Prop :=
  (view = c.view + 1 ∧ height = HEIGHT_1) ∨ (view = c.view ∧ height = c.height + 1)

instance {J : Type} (c : Node D J) (view : ℤ) (height : ℕ) : Decidable (isNext c view height) := by
  unfold isNext; infer_instance

/-- `advanceView` is entered: the main loop goes on to `getReference`, or back to its head. -/
def advanceView {J : Type} (c : Node D J) (view : ℤ) (height : ℕ) : Node D J :=
  if isNext c view height ∧ height ≤ HEIGHT_2 then { c with pc := .gather view height 0 [] }
  else { c with pc := .idle }

def handleReportMsg (c : BigNode D) (r : ReportMsg D) : BigMoved D :=
  c.verified (r.verify E) <|
    if LEVEL_0 < r.level then (c.crash, [])
    else if (c.countReport E r).2 then
      (advanceView (c.countReport E r).1 (r.view + 1) HEIGHT_1, [])
    else ((c.countReport E r).1, [])

/-- The switch of `Run`; it has no case for the other messages. -/
def handle (c : BigNode D) : Msg D → BigMoved D
  | .propose p => handleProposeMsg E c p
  | .vote v => handleVoteMsg E c v
  | .finVote _ => (c, [])
  | .speedVote sv => handleSpeedVoteMsg E self c sv
  | .elect e => handleElectMsg E c e
  | .randomCoin _ => (c, [])
  | .report r => handleReportMsg E c r

/-- The layer that the block of `(view, height)` refers to. -/
def layerBefore (view : ℤ) (height : ℕ) : ℤ × ℕ :=
  if height = HEIGHT_1 then (view - 1, HEIGHT_2) else (view, HEIGHT_1)

/-- `generatorBlock` of the DAG variant. -/
def generatorBlock (c : BigNode D) (view : ℤ) (height : ℕ) (references : List (BlockQC D)) :
    Block D × BigNode D :=
  (⟨self, view, height, c.getBatch.1, none, references⟩, c.getBatch.2)

/-- One step of `getReference` in `advanceView(view, height)`: the `i`-th instance is asked, or after
the last one the block is proposed if it has enough references. -/
def gather (c : BigNode D) (view : ℤ) (height : ℕ) (i : ℕ) (refs : List (BlockQC D)) : BigMoved D :=
  if i < E.n then
    let layer := layerBefore view height
    let qc := (c.spbInstances (layer.1, (i : ℤ))).blockQcs layer.2
    ({ c with pc := .gather view height (i + 1) (refs ++ qc.toList) }, [])
  else if E.hightThreshold ≤ refs.length then
    let r := generatorBlock self c view height refs
    ({ r.2 with view := view, height := height, pc := .idle },
      [.bcast (.propose (newProposeMsg E self r.1))])
  else ({ c with pc := .idle }, [])

/-- One step of the main loop inside `processCoin` or `advanceView`. -/
def main (c : BigNode D) : Option (BigMoved D) :=
  match c.pc with
  | .report _ view => some (advanceView c (view + 1) HEIGHT_1, [])
  | .gather view height i refs => some (gather E self c view height i refs)
  | _ => c.stepCoin fun c leader view => decide (E.lowThreshold ≤ getWeakVotes c view leader)

/-- The main loop takes an instance off `callBackSpb`. -/
def callback (c : BigNode D) : Option (BigMoved D) :=
  if c.ready then
    match c.callBackSpb with
    | [] => none
    | k :: rest => some (advanceView { c with callBackSpb := rest } k.1 HEIGHT_2, [])
  else none

/-! ## The machine -/

def recv (c : BigNode D) (m : Msg D) : Option (BigMoved D) :=
  if c.ready then some (handle E self c m) else none

def act (c : BigNode D) (a : Act) : Option (BigMoved D) :=
  if c.crashed then none
  else
    match a with
    | .boot => c.boot E self
    | .task i =>
      match c.tasks[i]? with
      | none => none
      | some (k, j) => DAGBigSPB.runJob E self { c with tasks := c.tasks.eraseIdx i } k j
    | .main => main E self c
    | .callback => callback c
    | .commitor => c.stepCommitor (DAGCommitor.run E)
    | .makeBatch txs => some (c.makeBatch E self txs, [])

/-- **The nodes of the DAG variant.** -/
def machine : Machine NodeID (BigNode D) (Msg D) Act (Event D) where
  hosts := E.members
  nodup := E.members_nodup
  init := fun _ => Node.new E
  recv := recv E
  act := act E

theorem handle_of_recv {E : Env D} {self : NodeID} {c : BigNode D} {m : Msg D} {r : BigMoved D}
    (h : recv E self c m = some r) : c.ready = true ∧ handle E self c m = r := by
  unfold recv at h
  split at h
  · next hready => exact ⟨hready, Option.some.inj h⟩
  · cases h

end DAGBigCore

end S2Pac
