import S2Pac.Core.Instance
import S2Pac.BigSPB.Instance
import S2Pac.DAGBigCore
import S2Pac.Traffic

/-!
# The steps of a node, branch by branch

The handlers of the three protocols and all that happens at a node besides, taken apart once. `Handling`
lists what a message can lead to and `Acting` what the other steps do, each branch with the state it leaves
and what it puts out; `Branches` are the machines whose steps are among these. What the later modules say
of a step of a node is read off the two lists.
-/

set_option linter.unusedSectionVars false

namespace S2Pac

open Lib

variable {D : Type} [DecidableEq D] {J : Type}

/-! ## Where the protocols differ -/

/-- The lean protocol, the big protocol and its DAG variant. -/
inductive Variant where
  | lean
  | big
  | dag

/-- The weak votes after a proposal. -/
def DAGBigCore.weakVotesOf (weakVotes : ℤ → NodeID → ℕ) (p : ProposeMsg D) : ℤ → NodeID → ℕ :=
  if p.height = HEIGHT_2 then
    p.b.references.foldl (fun w qc => addWeakVotes w qc.view qc.proposer) weakVotes
  else weakVotes

namespace Variant

/-- `handleProposeMsg` checks the `DocG` of a proposal. -/
def docG : Variant → Bool
  | big => false
  | _ => true

def weakVotes (V : Variant) (weakVotes : ℤ → NodeID → ℕ) (p : ProposeMsg D) : ℤ → NodeID → ℕ :=
  match V with
  | dag => DAGBigCore.weakVotesOf weakVotes p
  | _ => weakVotes

/-- The leader is told to the others. -/
def announce (V : Variant) (E : Env D) (self leader : NodeID) (view : ℤ) : List (NodeOut D) :=
  match V with
  | lean => [.others (.randomCoin (newRandomCoinMsg E leader self view))]
  | _ => []

/-- The `DocG` of the proposal that a report leads to. -/
def docOf (V : Variant) (r : ReportMsg D) : Option (DocGQCMsg D) :=
  match V with
  | lean => some ⟨r.view, r.level, []⟩
  | _ => none

/-- The test of `processCoin` that follows `SpeedCert()`. -/
def second (V : Variant) (E : Env D) (c : Node D J) (leader : NodeID) (view : ℤ) : Bool :=
  match V with
  | dag => decide (E.lowThreshold ≤ DAGBigCore.getWeakVotes c view leader)
  | _ => (c.spbInstances (view, leader)).decCert

/-- `coinViewFlags` after `processCoin`. -/
def flags (V : Variant) (flags : ℤ → Bool) (view : ℤ) : ℤ → Bool :=
  match V with
  | lean => Function.update flags view true
  | _ => flags

/-- The step of the commitor. -/
def run (V : Variant) (E : Env D) : Store D → Commitor D → Option (Commitor D × List (Block D)) :=
  match V with
  | dag => DAGCommitor.run E
  | _ => Commitor.run E

end Variant

/-- The goroutines of the instances of the nodes: those that a message starts, the jobs that there is code
for, what a step does, the instances it sends to the channel of callbacks, and where it panics. -/
structure Goroutines (D J : Type) where
  spawn : Msg D → List (Key × J)
  has : J → Prop
  step : NodeID → Key → SPB D → J → SPB D → List J → List (NodeOut D) → Prop
  calls : Key → J → List Key
  panics : Key → SPB D → J → Prop

def Core.goroutines (E : Env D) : Goroutines D (SpbJob D) where
  spawn := spawn
  has _ := True
  step := JobStep E
  calls _ _ := []
  panics k _ j := Panics k j

def BigSPB.goroutines (E : Env D) (V : Rules D) (has : BigJob D → Prop) : Goroutines D (BigJob D) where
  spawn := spawn V
  has := has
  step self := JobStep E self V
  calls := calls
  panics _ s j := Panics V s j

/-- There are no callbacks in the big protocol, -/
def BigCore.goroutines (E : Env D) : Goroutines D (BigJob D) :=
  BigSPB.goroutines E BigSPB.bigRules fun j => j ≠ .callBack

/-- and in the DAG variant only the main loop proposes. -/
def DAGBigCore.goroutines (E : Env D) : Goroutines D (BigJob D) :=
  BigSPB.goroutines E BigSPB.dagRules fun j => ∀ v, j ≠ .newPropose v

/-! ## Messages -/

/-- The message passes `Verify`, and a proposal also the check of its `DocG`, where the handler makes
it (`docG`). -/
def Msg.passes (E : Env D) (docG : Bool) (m : Msg D) : Bool :=
  decide (m.verify E = some true) &&
    match m with
    | .propose p => !docG || decide (p.verifyDocG E = some true)
    | _ => true

theorem Msg.passes_verify {E : Env D} {docG : Bool} {m : Msg D} (h : m.passes E docG = true) :
    m.verify E = some true := by
  simp only [Msg.passes, Bool.and_eq_true, decide_eq_true_eq] at h
  exact h.1

/-- The big protocols have no handler for the message. -/
def Msg.Unheard : Msg D → Prop
  | .finVote _ => True
  | .randomCoin _ => True
  | _ => False

/-- The handler of the message panics: at a check, in `tbls.Recover`, or at a level without a counter. -/
def Faulty (E : Env D) (V : Variant) (c : Node D J) : Msg D → Prop
  | .propose p => p.verify E = none ∨ (V.docG = true ∧ p.verifyDocG E = none)
  | .vote v => v.verify E = none
  | .finVote fv => V = .lean ∧ fv.verify E = none
  | .speedVote sv => sv.verify E = none
  | .elect e => c.eletor.add E e = none
  | .randomCoin r => V = .lean ∧ r.verify E = none
  | .report r => r.verify E = none ∨ LEVEL_0 < r.level

/-- Where `advanceView(view, height)` of the DAG variant takes the main loop. -/
def Node.entry (c : Node D J) (view : ℤ) (height : ℕ) : Pc D :=
  if DAGBigCore.isNext c view height ∧ height ≤ HEIGHT_2 then .gather view height 0 [] else .idle

theorem DAGBigCore.advanceView_entry (c : Node D J) (view : ℤ) (height : ℕ) :
    advanceView c view height = { c with pc := c.entry view height } := by
  unfold Node.entry advanceView
  split <;> rfl

section Handling

variable (E : Env D) (self : NodeID) (V : Variant) (P : Goroutines D J) (c : Node D J)

/-- **What handling a message does.** -/
inductive Handling : Msg D → Node D J → List (NodeOut D) → Prop
  /-- The message fails a check, or has no handler, or the lean protocol filters it by its view. -/
  | ignored {m : Msg D} : (m.passes E V.docG = true →
      (∀ p, m ≠ .propose p) ∧ (V = .lean ∨ m.Unheard)) → Handling m c []
  | panics {m : Msg D} : Faulty E V c m → Handling m c.crash []
  /-- The block of an old proposal is stored. -/
  | stale {p : ProposeMsg D} : V = .lean → Msg.passes E V.docG (.propose p) = true →
      Handling (.propose p) { c with store := storeBlock E c.store p.b } []
  | propose {p : ProposeMsg D} : Msg.passes E V.docG (.propose p) = true →
      Handling (.propose p) { c with
        store := storeBlock E c.store p.b
        weakVotes := V.weakVotes c.weakVotes p
        tasks := c.tasks ++ P.spawn (.propose p) } []
  | vote {v : VoteMsg D} : Msg.passes E V.docG (.vote v) = true →
      Handling (.vote v) { c with tasks := c.tasks ++ P.spawn (.vote v) } []
  | finVote {fv : FinVoteMsg D} : V = .lean → Msg.passes E V.docG (.finVote fv) = true →
      Handling (.finVote fv) { c with
        finVoteNums := Function.update c.finVoteNums fv.view
          ((c.finVoteNums fv.view).insert fv.author)
        tasks := c.tasks ++ P.spawn (.finVote fv) }
        (if ((c.finVoteNums fv.view).insert fv.author).length = E.hightThreshold then
          [.bcast (.elect (newElectMsg E self fv.view))] else [])
  | speedVote {sv : SpeedVoteMsg D} : V = .lean → Msg.passes E V.docG (.speedVote sv) = true →
      Handling (.speedVote sv) { c with tasks := c.tasks ++ P.spawn (.speedVote sv) } []
  | counted {sv : SpeedVoteMsg D} : V ≠ .lean → Msg.passes E V.docG (.speedVote sv) = true →
      Handling (.speedVote sv) { (BigCore.countSpeedVote E self c sv).1 with
        tasks := c.tasks ++ P.spawn (.speedVote sv) } (BigCore.countSpeedVote E self c sv).2
  | shares {e : ElectMsg} {el : Elector} {res : Except ElectErr NodeID} :
      c.eletor.add E e = some (el, res) → (∀ leader, res = .ok leader → leader = NONE) →
      Handling (.elect e) { c with eletor := el } []
  /-- The coin of the view has been tossed. -/
  | tossed {e : ElectMsg} {el : Elector} {leader : NodeID} : V = .lean →
      c.eletor.add E e = some (el, .ok leader) → leader ≠ NONE → c.coinViewFlags e.view = true →
      Handling (.elect e) { c with eletor := el } (V.announce E self leader e.view)
  | elected {e : ElectMsg} {el : Elector} {leader : NodeID} :
      c.eletor.add E e = some (el, .ok leader) → leader ≠ NONE →
      (V = .lean → c.coinViewFlags e.view = false) →
      Handling (.elect e) { c with eletor := el, pc := .coin leader e.view }
        (V.announce E self leader e.view)
  | told {r : RandomCoinMsg} : V = .lean → c.coinViewFlags r.view = false →
      Handling (.randomCoin r) { c with pc := .coin r.leader r.view } []
  | count {r : ReportMsg D} : r.level ≤ LEVEL_0 →
      ((c.countReport E r).2 = true → V ≠ .dag ∧ r.view + 1 ≤ c.view) →
      Handling (.report r) (c.countReport E r).1 []
  | advance {r : ReportMsg D} : V ≠ .dag → r.level ≤ LEVEL_0 → (c.countReport E r).2 = true →
      c.view < r.view + 1 →
      Handling (.report r) { (c.countReport E r).1 with
        view := r.view + 1
        batchChannel := c.getBatch.2.batchChannel }
        [.bcast (.propose { newProposeMsg E self
          ⟨self, r.view + 1, HEIGHT_1, c.getBatch.1, r.blockQc, []⟩ with docG := V.docOf r })]
  | enter {r : ReportMsg D} : V = .dag → r.level ≤ LEVEL_0 → (c.countReport E r).2 = true →
      Handling (.report r) { (c.countReport E r).1 with
        pc := c.entry (r.view + 1) HEIGHT_1 } []

variable {E self V P c}

theorem Handling.verified {m : Msg D} {ok : Option Bool} {r r' : Moved D J}
    (hr : r' = c.verified ok r) (hnone : ok = none → Faulty E V c m)
    (hfalse : ok = some false → m.passes E V.docG = false)
    (htrue : ok = some true → Handling E self V P c m r.1 r.2) :
    Handling E self V P c m r'.1 r'.2 := by
  subst hr
  unfold Node.verified
  split
  · exact .panics (hnone rfl)
  · exact .ignored fun hp => absurd hp (by simp [hfalse rfl])
  · exact htrue rfl

/-- A message that has only `Verify` to pass. -/
theorem Handling.checked {m : Msg D} {r r' : Moved D J} (hr : r' = c.verified (m.verify E) r)
    (hm : ∀ p, m ≠ .propose p) (hnone : m.verify E = none → Faulty E V c m)
    (htrue : m.passes E V.docG = true → Handling E self V P c m r.1 r.2) :
    Handling E self V P c m r'.1 r'.2 := by
  have hpasses : m.passes E V.docG = decide (m.verify E = some true) := by
    cases m with
    | propose p => exact absurd rfl (hm p)
    | _ => exact Bool.and_true _
  exact .verified hr hnone (fun hv => by simp [hpasses, hv]) fun hv => htrue (by simp [hpasses, hv])

theorem Msg.passes_propose {docG : Bool} {p : ProposeMsg D} :
    Msg.passes E docG (.propose p) = true ↔
      p.verify E = some true ∧ (docG = true → p.verifyDocG E = some true) := by
  simp only [Msg.passes, Bool.and_eq_true, Bool.or_eq_true, Bool.not_eq_true', decide_eq_true_eq,
    Bool.eq_false_iff, imp_iff_not_or, ne_eq]
  rfl

/-- Of the messages that pass the checks, only a share and a report can make a handler panic. -/
theorem Faulty.of_passes {m : Msg D} (h : Faulty E V c m) (hp : m.passes E V.docG = true) :
    (∃ e, m = .elect e ∧ c.eletor.add E e = none) ∨ ∃ r, m = .report r ∧ LEVEL_0 < r.level := by
  have hv (h : m.verify E = none) : False := by
    rw [Msg.passes_verify hp] at h
    cases h
  cases m with
  | propose p =>
    rcases h with h | ⟨hdoc, h⟩
    · exact (hv h).elim
    · have hd := (Msg.passes_propose.1 hp).2 hdoc
      rw [h] at hd
      cases hd
  | vote v => exact (hv h).elim
  | finVote fv => exact (hv h.2).elim
  | speedVote sv => exact (hv h).elim
  | elect e => exact Or.inl ⟨e, rfl, h⟩
  | randomCoin r => exact (hv h.2).elim
  | report r => exact Or.inr ⟨r, rfl, h.resolve_left hv⟩

end Handling

theorem Node.getBatch_of_channel (c c₀ : Node D J) (h : c₀.batchChannel = c.batchChannel) :
    c₀.getBatch = (c.getBatch.1, { c₀ with batchChannel := c.getBatch.2.batchChannel }) := by
  unfold Node.getBatch
  rw [h]
  split
  · rw [← h]
  · rfl

/-! ## The other steps -/

/-- The steps of `processCoin` up to its report; `second` is the test that follows `SpeedCert()`. -/
inductive CoinStep (second : NodeID → ℤ → Bool) (c : Node D J) :
    Node D J → List (NodeOut D) → Prop
  | speed {leader : NodeID} {view : ℤ} : c.pc = .coin leader view →
      (c.spbInstances (view, leader)).speedCert = true →
      CoinStep second c { c with pc := .fetch leader view HEIGHT_2 } []
  | slow {leader : NodeID} {view : ℤ} : c.pc = .coin leader view →
      CoinStep second c { c with pc := .decide leader view } []
  | second {leader : NodeID} {view : ℤ} : c.pc = .decide leader view → second leader view = true →
      CoinStep second c { c with pc := .fetch leader view HEIGHT_1 } []
  | undecided {leader : NodeID} {view : ℤ} : c.pc = .decide leader view →
      second leader view = false → CoinStep second c { c with pc := .report leader view } []
  | missing {leader : NodeID} {view : ℤ} {height : ℕ} : c.pc = .fetch leader view height →
      getBlock c.store ((c.spbInstances (view, leader)).blockHash height) = none →
      CoinStep second c { c with pc := .idle } []
  | found {leader : NodeID} {view : ℤ} {height : ℕ} {b : Block D} :
      c.pc = .fetch leader view height →
      getBlock c.store ((c.spbInstances (view, leader)).blockHash height) = some b →
      CoinStep second c { c with pc := .commit leader view height b } []
  | handed {leader : NodeID} {view : ℤ} {height : ℕ} {b : Block D} {cm : Commitor D} :
      c.pc = .commit leader view height b → c.commitor.commit b = some cm →
      CoinStep second c { c with commitor := cm, pc := .report leader view }
        [.event (.handed leader view height b)]

theorem coinStep_of_stepCoin {second : Node D J → NodeID → ℤ → Bool} {c : Node D J}
    {r : Moved D J} (h : c.stepCoin second = some r) : CoinStep (second c) c r.1 r.2 := by
  unfold Node.stepCoin at h
  split at h
  · next leader view hpc =>
    split at h
    · next hs => cases h; exact CoinStep.speed hpc hs
    · cases h; exact CoinStep.slow hpc
  · next leader view hpc =>
    split at h
    · next hs => cases h; exact CoinStep.second hpc hs
    · next hs => cases h; exact CoinStep.undecided hpc (by simpa using hs)
  · next leader view height hpc =>
    split at h
    · next hb => cases h; exact CoinStep.missing hpc hb
    · next b hb => cases h; exact CoinStep.found hpc hb
  · next leader view height b hpc =>
    split at h
    · cases h
    · next cm hcm => cases h; exact CoinStep.handed hpc hcm
  · cases h

section Acting

variable (E : Env D) (self : NodeID) (V : Variant) (P : Goroutines D J) (c : Node D J)

/-- **What happens at a node besides the arrival of messages.** -/
inductive Acting : Act → Node D J → List (NodeOut D) → Prop
  | boot : c.booted = false → E.faults ≤ self →
      Acting .boot { c with batchChannel := c.getBatch.2.batchChannel, booted := true }
        [.bcast (.propose (newProposeMsg E self ⟨self, c.view, c.height, c.getBatch.1, none, []⟩))]
  | task {i : ℕ} {k : Key} {j : J} {s : SPB D} {js : List J} {c' : Node D J} {os : List (NodeOut D)} :
      c.tasks[i]? = some (k, j) → P.has j → P.step self k (c.spbInstances k) j s js os →
      { c with tasks := c.tasks.eraseIdx i }.Worked k s js (P.calls k j)
        (P.panics k (c.spbInstances k) j) c' os → Acting (.task i) c' os
  | coin {c' : Node D J} {os : List (NodeOut D)} :
      CoinStep (V.second E c) c c' os → Acting .main c' os
  | report {leader : NodeID} {view : ℤ} : V ≠ .dag → c.pc = .report leader view →
      Acting .main { c with pc := .idle, coinViewFlags := V.flags c.coinViewFlags view }
        [.bcast (.report (newReportMsg E self view (c.spbInstances (view, leader)).qcLEvel.1
          (c.spbInstances (view, leader)).qcLEvel.2))]
  | leave {leader : NodeID} {view : ℤ} : V = .dag → c.pc = .report leader view →
      Acting .main { c with pc := c.entry (view + 1) HEIGHT_1 } []
  | ask {view : ℤ} {height i : ℕ} {refs : List (BlockQC D)} : V = .dag →
      c.pc = .gather view height i refs → i < E.n → Acting .main { c with
        pc := .gather view height (i + 1) (refs ++
          ((c.spbInstances ((DAGBigCore.layerBefore view height).1, (i : ℤ))).blockQcs
            (DAGBigCore.layerBefore view height).2).toList) } []
  | propose {view : ℤ} {height i : ℕ} {refs : List (BlockQC D)} : V = .dag →
      c.pc = .gather view height i refs → E.n ≤ i → E.hightThreshold ≤ refs.length →
      Acting .main { c with
        batchChannel := c.getBatch.2.batchChannel
        view := view
        height := height
        pc := .idle }
        [.bcast (.propose (newProposeMsg E self ⟨self, view, height, c.getBatch.1, none, refs⟩))]
  | few {view : ℤ} {height i : ℕ} {refs : List (BlockQC D)} : V = .dag →
      c.pc = .gather view height i refs → E.n ≤ i → refs.length < E.hightThreshold →
      Acting .main { c with pc := .idle } []
  | callback {k : Key} {rest : List Key} : V = .dag → c.ready = true → c.callBackSpb = k :: rest →
      Acting .callback { c with callBackSpb := rest, pc := c.entry k.1 HEIGHT_2 } []
  | commitor {cm : Commitor D} {bs : List (Block D)} : V.run E c.store c.commitor = some (cm, bs) →
      Acting .commitor { c with commitor := cm } (bs.map fun b => .event (.emit b))
  | makeBatch (txs : List Bytes) : Acting (.makeBatch txs) (c.makeBatch E self txs) []

variable {E self V P c}

theorem acting_boot {r : Moved D J} (h : c.boot E self = some r) :
    Acting E self V P c .boot r.1 r.2 := by
  unfold Node.boot at h
  split at h
  · cases h
  · next hn =>
    cases h
    have hb := c.getBatch_of_channel c rfl
    simp only [Node.generatorBlock]
    rw [hb]
    exact .boot (by simpa using (not_or.1 hn).1) (not_lt.1 (not_or.1 hn).2)

theorem acting_commitor {r : Moved D J} (h : c.stepCommitor (V.run E) = some r) :
    Acting E self V P c .commitor r.1 r.2 := by
  unfold Node.stepCommitor at h
  split at h
  · cases h
  · next cm bs hrun =>
    cases h
    exact .commitor hrun

end Acting

/-! ## The three protocols -/

/-- **The machines that take these steps.** -/
structure Branches (E : Env D) (V : Variant) (P : Goroutines D J)
    (M : Machine NodeID (Node D J) (Msg D) Act (Event D)) : Prop where
  init : ∀ i, M.init i = Node.new E
  recv : ∀ i c m r, M.recv i c m = some r → c.ready = true ∧ Handling E i V P c m r.1 r.2
  act : ∀ i c a r, M.act i c a = some r → Acting E i V P c a r.1 r.2
  live : ∀ i c a r, M.act i c a = some r → c.crashed = false

/-! ## Goroutines and the main loop -/

/-- The heights at which the main loop proposes. -/
def Variant.proposes (V : Variant) (height : ℕ) : Prop :=
  match V with
  | dag => True
  | _ => height = HEIGHT_1

/-- What is put out outside the goroutines of the instances. -/
def Variant.Other (V : Variant) (o : NodeOut D) : Prop :=
  match o.msg with
  | some (.propose p) => V.proposes p.height
  | some (.vote _) => False
  | some (.finVote _) => False
  | some (.speedVote _) => False
  | _ => True

section Pools

variable {E : Env D} {self : NodeID} {V : Variant} {P : Goroutines D J} {c c' : Node D J}
  {os : List (NodeOut D)} {C : PoolCode Key (SPB D) J (Msg D) (NodeOut D)}

/-- A handler leaves the instances alone, hands the message to a goroutine or drops it, and sends nothing
that a goroutine sends. -/
theorem Handling.frame {m : Msg D} (h : Handling E self V P c m c' os)
    (hother : ∀ o, V.Other o → C.other o) : PoolFrame (P.spawn m) C.other c (c', os) := by
  have hnone : ∀ o ∈ ([] : List (NodeOut D)), C.other o := by simp
  cases h with
  | propose _ | vote _ | speedVote _ _ => exact ⟨rfl, Or.inr rfl, hnone⟩
  | finVote _ _ =>
    refine ⟨rfl, Or.inr rfl, fun o ho => ?_⟩
    split at ho
    · rw [List.mem_singleton.1 ho]
      exact hother _ trivial
    · exact absurd ho List.not_mem_nil
  | counted _ _ =>
    refine ⟨rfl, Or.inr rfl, fun o ho => ?_⟩
    unfold BigCore.countSpeedVote at ho
    dsimp only at ho
    split at ho
    · rw [List.mem_singleton.1 ho]
      exact hother _ trivial
    · exact absurd ho List.not_mem_nil
  | tossed _ _ _ _ | elected _ _ _ =>
    refine ⟨rfl, Or.inl rfl, fun o ho => ?_⟩
    cases V with
    | lean =>
      rw [List.mem_singleton.1 ho]
      exact hother _ trivial
    | _ => exact absurd ho List.not_mem_nil
  | advance hdag _ _ _ =>
    refine ⟨rfl, Or.inl rfl, fun o ho => ?_⟩
    rw [List.mem_singleton.1 ho]
    refine hother _ ?_
    cases V with
    | dag => exact absurd rfl hdag
    | _ => exact rfl
  | _ => exact ⟨rfl, Or.inl rfl, hnone⟩

/-- The other steps are steps of the goroutines, or leave them alone. The nodes of the lean and the big
protocol stay at height 1. -/
theorem Acting.poolStep {a : Act} (h : Acting E self V P c a c' os) (hh : V.proposes c.height)
    (hstep : ∀ k s j s' js os, P.step self k s j s' js os → C.step k s j s' js os)
    (hother : ∀ o, V.Other o → C.other o) : PoolStep C c a (c', os) := by
  have hone {o : NodeOut D} (ho : V.Other o) : ∀ o' ∈ [o], C.other o' := fun o' ho' => by
    rw [List.mem_singleton.1 ho']
    exact hother o ho
  cases h with
  | boot _ _ => exact PoolStep.other ⟨rfl, Or.inl rfl, hone hh⟩
  | task hi _ hs hwork => exact PoolStep.task rfl hi (hstep _ _ _ _ _ _ hs) hwork.spb hwork.tasks
  | coin hc =>
    cases hc with
    | handed _ _ => exact PoolStep.other ⟨rfl, Or.inl rfl, hone trivial⟩
    | _ => exact PoolStep.other ⟨rfl, Or.inl rfl, by simp⟩
  | report _ _ => exact PoolStep.other ⟨rfl, Or.inl rfl, hone trivial⟩
  | propose hdag _ _ _ =>
    subst hdag
    exact PoolStep.other ⟨rfl, Or.inl rfl, hone trivial⟩
  | commitor _ =>
    refine PoolStep.other ⟨rfl, Or.inl rfl, fun o ho => ?_⟩
    obtain ⟨b, -, rfl⟩ := List.mem_map.1 ho
    exact hother _ trivial
  | _ => exact PoolStep.other ⟨rfl, Or.inl rfl, by simp⟩

end Pools

/-! ## Shares of the coin -/

/-- No share of the coin. -/
def Shareless (o : NodeOut D) : Prop := ∀ e, o.msg ≠ some (.elect e)

theorem shareless_nil : ∀ o ∈ ([] : List (NodeOut D)), Shareless o := by simp

theorem shareless_singleton {o : NodeOut D} (h : Shareless o) : ∀ o' ∈ [o], Shareless o' := by
  intro o' ho'
  rwa [List.mem_singleton.1 ho']

theorem Variant.announce_shareless (V : Variant) (E : Env D) (self leader : NodeID) (view : ℤ) :
    ∀ o ∈ V.announce E self leader view, Shareless o := by
  cases V with
  | lean => exact shareless_singleton (by simp [Shareless, Out.msg])
  | _ => exact shareless_nil

/-- Only a handler counts `FinVoteMsg`s and speed votes, and sends shares. -/
theorem Acting.uncounted {E : Env D} {self : NodeID} {V : Variant} {P : Goroutines D J}
    {c c' : Node D J} {a : Act} {os : List (NodeOut D)} (h : Acting E self V P c a c' os)
    (hstep : ∀ k s j s' js os, P.step self k s j s' js os → ∀ o ∈ os, Shareless o) :
    c'.finVoteNums = c.finVoteNums ∧ c'.speedVoteNums = c.speedVoteNums ∧ ∀ o ∈ os, Shareless o := by
  cases h with
  | boot _ _ => exact ⟨rfl, rfl, shareless_singleton (by simp [Shareless, Out.msg])⟩
  | task hi _ hs hwork =>
    exact ⟨hwork.finVoteNums, hwork.speedVoteNums, hstep _ _ _ _ _ _ hs⟩
  | coin hc =>
    cases hc with
    | handed _ _ => exact ⟨rfl, rfl, shareless_singleton (by simp [Shareless, Out.msg])⟩
    | _ => exact ⟨rfl, rfl, shareless_nil⟩
  | report _ _ => exact ⟨rfl, rfl, shareless_singleton (by simp [Shareless, Out.msg])⟩
  | propose _ _ _ _ => exact ⟨rfl, rfl, shareless_singleton (by simp [Shareless, Out.msg])⟩
  | commitor _ =>
    refine ⟨rfl, rfl, fun o ho => ?_⟩
    obtain ⟨b, -, rfl⟩ := List.mem_map.1 ho
    simp [Shareless, Out.msg]
  | _ => exact ⟨rfl, rfl, shareless_nil⟩

/-! ## The handlers -/

namespace Core

variable {E : Env D} {self : NodeID}

theorem handling (c : Node D (SpbJob D)) (m : Msg D) :
    Handling E self .lean (goroutines E) c m (handle E self c m).1 (handle E self c m).2 := by
  cases m with
  | propose p =>
    refine .verified rfl Or.inl (fun hv => ?_) fun hv => ?_
    · simp [Msg.passes, Msg.verify, hv]
    refine .verified rfl (fun h => Or.inr ⟨rfl, h⟩) (fun hd => ?_) fun hd => ?_
    · simp [Msg.passes, Variant.docG, hd]
    have hp : Msg.passes E Variant.lean.docG (.propose p) = true :=
      Msg.passes_propose.2 ⟨hv, fun _ => hd⟩
    dsimp only
    split
    · exact .stale rfl hp
    · exact .propose hp
  | vote v =>
    simp only [handle, handleVoteMsg]
    split
    · exact .ignored fun _ => ⟨by simp, Or.inl rfl⟩
    · exact .checked rfl (by simp) id fun hp => .vote hp
  | finVote fv =>
    simp only [handle, handleFinVoteMsg]
    split
    · exact .ignored fun _ => ⟨by simp, Or.inl rfl⟩
    · exact .checked rfl (by simp) (fun h => ⟨rfl, h⟩) fun hp => .finVote rfl hp
  | speedVote sv =>
    simp only [handle, handleSpeedVoteMsg]
    split
    · exact .ignored fun _ => ⟨by simp, Or.inl rfl⟩
    · exact .checked rfl (by simp) id fun hp => .speedVote rfl hp
  | elect e =>
    simp only [handle, handleElectMsg, processCoin]
    split
    · exact .ignored fun _ => ⟨by simp, Or.inl rfl⟩
    · split
      · exact .ignored fun _ => ⟨by simp, Or.inl rfl⟩
      · split
        · next h => exact .panics h
        · next hadd => exact .shares hadd (by simp)
        · next leader hadd =>
          split
          · next hnone => exact .shares hadd fun l h => by cases h; exact hnone
          · next hne =>
            split
            · next hf => exact .tossed rfl hadd hne hf
            · next hf => exact .elected hadd hne fun _ => by simpa using hf
  | randomCoin r =>
    refine .checked rfl (by simp) (fun h => ⟨rfl, h⟩) fun _ => ?_
    unfold processCoin
    split
    · exact .ignored fun _ => ⟨by simp, Or.inl rfl⟩
    · next hf => exact .told rfl (by simpa using hf)
  | report r =>
    simp only [handle, handleReportMsg]
    split
    · exact .ignored fun _ => ⟨by simp, Or.inl rfl⟩
    · refine .checked rfl (by simp) Or.inl fun _ => ?_
      split
      · next hlev => exact .panics (Or.inr hlev)
      · next hlev =>
        split
        · next hthr =>
          unfold advanceView
          split
          · next hle => exact .count (not_lt.1 hlev) fun _ => ⟨by simp, hle⟩
          · next hlt =>
            have hb := c.getBatch_of_channel { (c.countReport E r).1 with view := r.view + 1 } rfl
            simp only [Node.generatorBlock]
            rw [hb]
            exact .advance (by simp) (not_lt.1 hlev) hthr (not_le.1 hlt)
        · next hthr => exact .count (not_lt.1 hlev) fun h => absurd h hthr

theorem acting {c : Node D (SpbJob D)} {a : Act} {r : Moved D (SpbJob D)}
    (h : act E self c a = some r) : Acting E self .lean (goroutines E) c a r.1 r.2 := by
  unfold act at h
  split at h
  · cases h
  · cases a with
    | boot => exact acting_boot h
    | task i =>
      dsimp only at h
      split at h
      · cases h
      · next hi =>
        obtain ⟨s, js, hstep, hwork⟩ := step_of_runJob (Option.some.inj h)
        exact .task hi trivial hstep hwork
    | main =>
      dsimp only [main] at h
      split at h
      · next hpc =>
        cases h
        exact .report (by simp) hpc
      · exact .coin (coinStep_of_stepCoin h)
    | callback => cases h
    | commitor => exact acting_commitor h
    | makeBatch txs =>
      cases h
      exact .makeBatch txs

theorem live {c : Node D (SpbJob D)} {a : Act} {r : Moved D (SpbJob D)}
    (h : act E self c a = some r) : c.crashed = false := by
  unfold act at h
  split at h
  · cases h
  · next hc => simpa using hc

theorem branches (E : Env D) : Branches E .lean (goroutines E) (machine E) where
  init _ := rfl
  recv _ c m _ h := by
    obtain ⟨hready, rfl⟩ := handle_of_recv h
    exact ⟨hready, handling c m⟩
  act _ _ _ _ h := acting h
  live _ _ _ _ h := live h

end Core

namespace BigCore

variable {E : Env D} {self : NodeID}

section

variable {V : Variant} {rules : BigSPB.Rules D} {has : BigJob D → Prop}

theorem handling_vote (c : BigNode D) (v : VoteMsg D) :
    Handling E self V (BigSPB.goroutines E rules has) c (.vote v) (handleVoteMsg E c v).1
      (handleVoteMsg E c v).2 :=
  .checked rfl (by simp) id fun hp => .vote hp

/-- The two protocols hand a speed vote to different instances. -/
theorem handling_speedVote (hV : V ≠ .lean) (c : BigNode D) (sv : SpeedVoteMsg D) {r : BigMoved D}
    (hr : r = c.verified (sv.verify E)
      ((countSpeedVote E self c sv).1.go (rules.speedKey sv) [.speedVote sv],
        (countSpeedVote E self c sv).2)) :
    Handling E self V (BigSPB.goroutines E rules has) c (.speedVote sv) r.1 r.2 := by
  subst hr
  exact .checked rfl (by simp) id fun hp => .counted hV hp

theorem handling_elect (hV : V ≠ .lean) (c : BigNode D) (e : ElectMsg) :
    Handling E self V (BigSPB.goroutines E rules has) c (.elect e) (handleElectMsg E c e).1
      (handleElectMsg E c e).2 := by
  unfold handleElectMsg
  rw [if_neg (by simp [ElectMsg.verify])]
  split
  · next h => exact .panics h
  · next hadd => exact .shares hadd (by simp)
  · next leader hadd =>
    split
    · next hnone => exact .shares hadd fun l h => by cases h; exact hnone
    · next hne =>
      have h : Handling E self V (BigSPB.goroutines E rules has) c (.elect e) _ _ :=
        .elected hadd hne fun h => absurd h hV
      cases V with
      | lean => exact absurd rfl hV
      | big => exact h
      | dag => exact h

end

theorem handling (c : BigNode D) (m : Msg D) :
    Handling E self .big (goroutines E) c m (handle E self c m).1
      (handle E self c m).2 := by
  cases m with
  | propose p =>
    refine .verified rfl Or.inl (fun hv => ?_) fun hv => ?_
    · simp [Msg.passes, Msg.verify, hv]
    · exact .propose (Msg.passes_propose.2 ⟨hv, by simp [Variant.docG]⟩)
  | vote v => exact handling_vote c v
  | finVote fv => exact .ignored fun _ => ⟨by simp, Or.inr trivial⟩
  | speedVote sv => exact handling_speedVote (by simp) c sv rfl
  | elect e => exact handling_elect (by simp) c e
  | randomCoin r => exact .ignored fun _ => ⟨by simp, Or.inr trivial⟩
  | report r =>
    refine .checked rfl (by simp) Or.inl fun _ => ?_
    split
    · next hlev => exact .panics (Or.inr hlev)
    · next hlev =>
      split
      · next hthr =>
        unfold advanceView
        split
        · next hle => exact .count (not_lt.1 hlev) fun _ => ⟨by simp, hle⟩
        · next hlt =>
          have hb := c.getBatch_of_channel { (c.countReport E r).1 with view := r.view + 1 } rfl
          simp only [Node.generatorBlock]
          rw [hb]
          exact .advance (by simp) (not_lt.1 hlev) hthr (not_le.1 hlt)
      · next hthr => exact .count (not_lt.1 hlev) fun h => absurd h hthr

theorem acting {c : BigNode D} {a : Act} {r : BigMoved D} (h : act E self c a = some r) :
    Acting E self .big (goroutines E) c a r.1 r.2 := by
  unfold act at h
  split at h
  · cases h
  · cases a with
    | boot => exact acting_boot h
    | task i =>
      dsimp only at h
      split at h
      · cases h
      · next hi =>
        obtain ⟨s, js, hstep, hwork⟩ := BigSPB.does_runJob _ _ h
        exact .task hi (by rintro rfl; cases h) hstep hwork
    | main =>
      dsimp only [main] at h
      split at h
      · next hpc =>
        cases h
        exact .report (by simp) hpc
      · exact .coin (coinStep_of_stepCoin h)
    | callback => cases h
    | commitor => exact acting_commitor h
    | makeBatch txs =>
      cases h
      exact .makeBatch txs

theorem live {c : BigNode D} {a : Act} {r : BigMoved D} (h : act E self c a = some r) :
    c.crashed = false := by
  unfold act at h
  split at h
  · cases h
  · next hc => simpa using hc

theorem branches (E : Env D) : Branches E .big (goroutines E) (machine E) where
  init _ := rfl
  recv _ c m _ h := by
    obtain ⟨hready, rfl⟩ := handle_of_recv h
    exact ⟨hready, handling c m⟩
  act _ _ _ _ h := acting h
  live _ _ _ _ h := live h

end BigCore

namespace DAGBigCore

variable {E : Env D} {self : NodeID}

theorem handling (c : BigNode D) (m : Msg D) :
    Handling E self .dag (goroutines E) c m (handle E self c m).1
      (handle E self c m).2 := by
  cases m with
  | propose p =>
    refine .verified rfl Or.inl (fun hv => ?_) fun hv => ?_
    · simp [Msg.passes, Msg.verify, hv]
    refine .verified rfl (fun h => Or.inr ⟨rfl, h⟩) (fun hd => ?_) fun hd => ?_
    · simp [Msg.passes, Variant.docG, hd]
    exact .propose (Msg.passes_propose.2 ⟨hv, fun _ => hd⟩)
  | vote v => exact BigCore.handling_vote c v
  | finVote fv => exact .ignored fun _ => ⟨by simp, Or.inr trivial⟩
  | speedVote sv => exact BigCore.handling_speedVote (by simp) c sv rfl
  | elect e => exact BigCore.handling_elect (by simp) c e
  | randomCoin r => exact .ignored fun _ => ⟨by simp, Or.inr trivial⟩
  | report r =>
    refine .checked rfl (by simp) Or.inl fun _ => ?_
    split
    · next hlev => exact .panics (Or.inr hlev)
    · next hlev =>
      split
      · next hthr =>
        rw [advanceView_entry]
        exact .enter rfl (not_lt.1 hlev) hthr
      · next hthr => exact .count (not_lt.1 hlev) fun h => absurd h hthr

theorem acting_main {c : BigNode D} {r : BigMoved D} (h : main E self c = some r) :
    Acting E self .dag (goroutines E) c .main r.1 r.2 := by
  unfold main at h
  split at h
  · next hpc =>
    cases h
    rw [advanceView_entry]
    exact .leave rfl hpc
  · next hpc =>
    cases h
    unfold gather
    split
    · next hi => exact .ask rfl hpc hi
    · next hi =>
      split
      · next hlen =>
        have hb := c.getBatch_of_channel c rfl
        simp only [generatorBlock]
        rw [hb]
        exact .propose rfl hpc (not_lt.1 hi) hlen
      · next hlen => exact .few rfl hpc (not_lt.1 hi) (not_le.1 hlen)
  · exact .coin (coinStep_of_stepCoin h)

theorem acting {c : BigNode D} {a : Act} {r : BigMoved D} (h : act E self c a = some r) :
    Acting E self .dag (goroutines E) c a r.1 r.2 := by
  unfold act at h
  split at h
  · cases h
  · cases a with
    | boot => exact acting_boot h
    | task i =>
      dsimp only at h
      split at h
      · cases h
      · next hi =>
        obtain ⟨s, js, hstep, hwork⟩ := BigSPB.does_runJob_dag _ _ h
        exact .task hi (by rintro v rfl; cases h) hstep hwork
    | main => exact acting_main h
    | callback =>
      dsimp only [callback] at h
      split at h
      · next hready =>
        split at h
        · cases h
        · next hqueue =>
          cases h
          rw [advanceView_entry]
          exact .callback rfl hready hqueue
      · cases h
    | commitor => exact acting_commitor h
    | makeBatch txs =>
      cases h
      exact .makeBatch txs

theorem live {c : BigNode D} {a : Act} {r : BigMoved D} (h : act E self c a = some r) :
    c.crashed = false := by
  unfold act at h
  split at h
  · cases h
  · next hc => simpa using hc

theorem branches (E : Env D) : Branches E .dag (goroutines E) (machine E) where
  init _ := rfl
  recv _ c m _ h := by
    obtain ⟨hready, rfl⟩ := handle_of_recv h
    exact ⟨hready, handling c m⟩
  act _ _ _ _ h := acting h
  live _ _ _ _ h := live h

end DAGBigCore

end S2Pac
