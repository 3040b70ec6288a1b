import S2Pac.Coin
import S2Pac.LinearLog
import S2Pac.Branches

/-!
# What a node does outside its instances

The lean and the big protocol have the same main loop, up to the messages they filter and the way a
coin is told. `Turn` says what a step of a node can do to the fields of the main loop, and what it puts
out when it does, as `Handling` and `Acting` have it; `Turns` are the machines whose steps are turns. The
rest of the module follows such a node over a whole local run:

* the store holds received blocks, the reports it counts were received;
* it makes one height-1 proposal in a view, and what the proposal rests on (`Turns.proposed_first`);
* what it hands to its commitor, and what the commitor then emits (`Turns.handed`, `Turns.log`).
-/

set_option linter.unusedSectionVars false

namespace S2Pac

open Lib

variable {D : Type} [DecidableEq D] {J : Type}

/-- The blocks that the commitor of a node has emitted. -/
def emitted (outs : List (NodeOut D)) : List (Block D) :=
  outs.filterMap fun o =>
    match o with
    | .event (.emit b) => some b
    | _ => none

/-! ## Turns -/

/-- The fields of the main loop are the same. -/
structure Node.Keeps (c c' : Node D J) : Prop where
  view : c'.view = c.view
  height : c'.height = c.height
  store : c'.store = c.store
  eletor : c'.eletor = c.eletor
  commitor : c'.commitor = c.commitor
  coinViewFlags : c'.coinViewFlags = c.coinViewFlags
  reportNums : c'.reportNums = c.reportNums
  pc : c'.pc = c.pc
  booted : c'.booted = c.booted

theorem Node.SameMain.keeps {c c' : Node D J} (h : c.SameMain c') : c.Keeps c' :=
  ⟨h.view, h.height, h.store, h.eletor, h.commitor, h.coinViewFlags, h.reportNums, h.pc, h.booted⟩

/-- What an instance has reached it does not lose. -/
structure SPB.Grows (s s' : SPB D) : Prop where
  speedCert : s.speedCert = true → s'.speedCert = true
  blockQcs : ∀ height, s.blockQcs height ≠ none → s'.blockQcs height ≠ none

theorem SPB.Grows.refl (s : SPB D) : s.Grows s := ⟨fun h => h, fun _ h => h⟩

theorem SPB.Grows.decCert {s s' : SPB D} (h : s.Grows s') (hs : s.decCert = true) :
    s'.decCert = true := by
  simp only [SPB.decCert, Bool.and_eq_true, Option.isSome_iff_ne_none] at hs ⊢
  exact ⟨h.blockQcs _ hs.1, h.blockQcs _ hs.2⟩

/-- The main loop is in the body of `processCoin(leader, view)`. -/
def Tossing (c : Node D J) (leader : NodeID) (view : ℤ) : Prop :=
  match c.pc with
  | .coin leader' view' => leader' = leader ∧ view' = view
  | .decide leader' view' => leader' = leader ∧ view' = view
  | .fetch leader' view' _ => leader' = leader ∧ view' = view
  | .commit leader' view' _ _ => leader' = leader ∧ view' = view
  | .report leader' view' => leader' = leader ∧ view' = view
  | _ => False

instance (c : Node D J) (leader : NodeID) (view : ℤ) : Decidable (Tossing c leader view) := by
  unfold Tossing
  split <;> infer_instance

theorem CoinStep.tossing {second : NodeID → ℤ → Bool} {c c' : Node D J} {os : List (NodeOut D)}
    (hs : CoinStep second c c' os) {leader : NodeID} {view : ℤ} (hc : Tossing c' leader view) :
    Tossing c leader view := by
  unfold Tossing at hc ⊢
  cases hs with
  | speed hpc _ => rw [hpc]; exact hc
  | slow hpc => rw [hpc]; exact hc
  | second hpc _ => rw [hpc]; exact hc
  | undecided hpc _ => rw [hpc]; exact hc
  | missing _ _ => exact hc.elim
  | found hpc _ => rw [hpc]; exact hc
  | handed hpc _ => rw [hpc]; exact hc

/-- An output for a single node is a vote. -/
def OnlyVotes (o : NodeOut D) : Prop :=
  ∀ i m, o = .to i m → (∃ v, m = .vote v) ∨ ∃ sv, m = .speedVote sv

/-- No height-1 proposal, no coin and no report. -/
def Msg.Beside : Msg D → Prop
  | .propose p => p.height ≠ HEIGHT_1
  | .randomCoin _ => False
  | .report _ => False
  | _ => True

/-- What a node puts out outside the turns below. -/
def Aside (o : NodeOut D) : Prop := OnlyVotes o ∧ ∃ m, o.msg = some m ∧ m.Beside

theorem Aside.beside {o : NodeOut D} (h : Aside o) {m : Msg D} (hm : o.msg = some m) : m.Beside := by
  obtain ⟨-, m', hm', hb⟩ := h
  rwa [Option.some.inj (hm.symm.trans hm')]

theorem Aside.bcast {m : Msg D} (h : m.Beside) : Aside (.bcast m : NodeOut D) :=
  ⟨fun _ _ he => (by cases he), m, rfl, h⟩

theorem Aside.msg_ne_none {o : NodeOut D} (h : Aside o) : o.msg ≠ none := by
  obtain ⟨-, m, hm, -⟩ := h
  simp [hm]

/-- The coin that a node passes on. -/
def Announced (E : Env D) (self : NodeID) (res : Except ElectErr NodeID) (view : ℤ)
    (o : NodeOut D) : Prop :=
  ∃ leader, res = .ok leader ∧ leader ≠ NONE ∧
    o = .others (.randomCoin (newRandomCoinMsg E leader self view))

/-- **What a step of node `self` can do**, with what sets it off and what it puts out. `flagged`: the
node keeps `coinViewFlags`. -/
inductive Turn (E : Env D) (self : NodeID) (flagged : Bool) (c : Node D J) :
    Input (Msg D) Act → Node D J → List (NodeOut D) → Prop
  | aside {x : Input (Msg D) Act} {c' : Node D J} {os : List (NodeOut D)} : c.Keeps c' →
      (∀ k, (c.spbInstances k).Grows (c'.spbInstances k)) → (∀ o ∈ os, Aside o) →
      Turn E self flagged c x c' os
  | boot (batch : Batch) {bs : List Batch} : c.booted = false → E.faults ≤ self →
      Turn E self flagged c (.act .boot) { c with batchChannel := bs, booted := true }
        [.bcast (.propose (newProposeMsg E self ⟨self, c.view, c.height, batch, none, []⟩))]
  | store {p : ProposeMsg D} {c' : Node D J} :
      { c with store := storeBlock E c.store p.b }.Keeps c' → c'.spbInstances = c.spbInstances →
      Turn E self flagged c (.recv (.propose p)) c' []
  | shares {e : ElectMsg} {el : Elector} {res : Except ElectErr NodeID} {os : List (NodeOut D)} :
      c.eletor.add E e = some (el, res) → (∀ o ∈ os, Announced E self res e.view o) →
      Turn E self flagged c (.recv (.elect e)) { c with eletor := el } os
  | elected {e : ElectMsg} {el : Elector} {leader : NodeID} {os : List (NodeOut D)} :
      c.pc = .idle → c.eletor.add E e = some (el, .ok leader) → leader ≠ NONE →
      (flagged = true → c.coinViewFlags e.view = false) →
      (∀ o ∈ os, Announced E self (.ok leader) e.view o) →
      Turn E self flagged c (.recv (.elect e)) { c with eletor := el, pc := .coin leader e.view } os
  | told {r : RandomCoinMsg} : flagged = true → c.pc = .idle → c.coinViewFlags r.view = false →
      Turn E self flagged c (.recv (.randomCoin r)) { c with pc := .coin r.leader r.view } []
  | count {r : ReportMsg D} : r.level ≤ LEVEL_0 →
      ((c.countReport E r).2 = true → r.view + 1 ≤ c.view) →
      Turn E self flagged c (.recv (.report r)) (c.countReport E r).1 []
  | advance {r : ReportMsg D} (batch : Batch) {bs : List Batch} {docG : Option (DocGQCMsg D)} :
      (∀ d, docG = some d → d.shares = []) → r.level ≤ LEVEL_0 → c.booted = true →
      (c.countReport E r).2 = true → c.view < r.view + 1 →
      Turn E self flagged c (.recv (.report r))
        { (c.countReport E r).1 with view := r.view + 1, batchChannel := bs }
        [.bcast (.propose { newProposeMsg E self
          ⟨self, r.view + 1, HEIGHT_1, batch, r.blockQc, []⟩ with docG := docG })]
  | process {c' : Node D J} {os : List (NodeOut D)} :
      CoinStep (fun leader view => (c.spbInstances (view, leader)).decCert) c c' os →
      Turn E self flagged c (.act .main) c' os
  | report {leader : NodeID} {view : ℤ} : c.pc = .report leader view →
      Turn E self flagged c (.act .main) { c with
        pc := .idle
        coinViewFlags := if flagged then Function.update c.coinViewFlags view true
          else c.coinViewFlags }
        [.bcast (.report (newReportMsg E self view (c.spbInstances (view, leader)).qcLEvel.1
          (c.spbInstances (view, leader)).qcLEvel.2))]
  | commitor {cm : Commitor D} {bs : List (Block D)} :
      Commitor.run E c.store c.commitor = some (cm, bs) →
      Turn E self flagged c (.act .commitor) { c with commitor := cm } (bs.map fun b => .event (.emit b))

theorem Turn.skip {E : Env D} {self : NodeID} {flagged : Bool} {c c' : Node D J}
    {x : Input (Msg D) Act} (hk : c.Keeps c') (hs : c'.spbInstances = c.spbInstances) :
    Turn E self flagged c x c' [] :=
  Turn.aside hk (fun k => by rw [hs]; exact SPB.Grows.refl _) (by simp)

theorem Turn.task {E : Env D} {self : NodeID} {flagged : Bool} {c c' : Node D J}
    {x : Input (Msg D) Act} {os : List (NodeOut D)} {ts : List (Key × J)} {k : Key} {s : SPB D}
    (hsame : { c with tasks := ts }.SameMain c')
    (hspb : c'.spbInstances = Function.update c.spbInstances k s)
    (hg : (c.spbInstances k).Grows s) (ha : ∀ o ∈ os, Aside o) : Turn E self flagged c x c' os := by
  have hkeep := hsame.keeps
  refine Turn.aside ⟨hkeep.view, hkeep.height, hkeep.store, hkeep.eletor, hkeep.commitor,
    hkeep.coinViewFlags, hkeep.reportNums, hkeep.pc, hkeep.booted⟩ (fun k' => ?_) ha
  rw [hspb]
  by_cases hk : k' = k
  · subst hk
    rw [Function.update_self]
    exact hg
  · rw [Function.update_of_ne hk]
    exact SPB.Grows.refl _

/-- The nodes of the lean protocol keep `coinViewFlags`. -/
def Variant.flagged : Variant → Bool
  | lean => true
  | _ => false

section Steps

variable {E : Env D} {self : NodeID} {V : Variant} {P : Goroutines D J} {c c' : Node D J}
  {os : List (NodeOut D)}

theorem Variant.announced {leader : NodeID} (hne : leader ≠ NONE) (view : ℤ) :
    ∀ o ∈ V.announce E self leader view, Announced E self (.ok leader) view o := by
  intro o ho
  cases V with
  | lean => exact ⟨leader, rfl, hne, List.mem_singleton.1 ho⟩
  | _ => exact absurd ho List.not_mem_nil

theorem BigCore.countSpeedVote_aside (c : Node D J) (sv : SpeedVoteMsg D) :
    ∀ o ∈ (countSpeedVote E self c sv).2, Aside o := by
  intro o ho
  unfold countSpeedVote at ho
  dsimp only at ho
  split at ho
  · rw [List.mem_singleton.1 ho]
    exact Aside.bcast trivial
  · exact absurd ho List.not_mem_nil

/-- The handlers of the lean and the big protocol take turns, -/
theorem Handling.turn {m : Msg D} (h : Handling E self V P c m c' os) (hV : V ≠ .dag)
    (hready : c.ready = true) : Turn E self V.flagged c (.recv m) c' os := by
  obtain ⟨hb, hpc⟩ := Node.idle_of_ready hready
  have hsame : ∀ k, (c.spbInstances k).Grows (c.spbInstances k) := fun _ => SPB.Grows.refl _
  cases h with
  | stale _ _ => exact Turn.store ⟨rfl, rfl, rfl, rfl, rfl, rfl, rfl, rfl, rfl⟩ rfl
  | propose _ => exact Turn.store ⟨rfl, rfl, rfl, rfl, rfl, rfl, rfl, rfl, rfl⟩ rfl
  | finVote _ _ =>
    refine Turn.aside ⟨rfl, rfl, rfl, rfl, rfl, rfl, rfl, rfl, rfl⟩ hsame fun o ho => ?_
    split at ho
    · rw [List.mem_singleton.1 ho]
      exact Aside.bcast trivial
    · exact absurd ho List.not_mem_nil
  | @counted sv _ _ =>
    exact Turn.aside ⟨rfl, rfl, rfl, rfl, rfl, rfl, rfl, rfl, rfl⟩ hsame
      (BigCore.countSpeedVote_aside c sv)
  | shares hadd _ => exact Turn.shares hadd (by simp)
  | tossed _ hadd hne _ => exact Turn.shares hadd (Variant.announced hne _)
  | elected hadd hne hflag =>
    refine Turn.elected hpc hadd hne (fun h => hflag ?_) (Variant.announced hne _)
    cases V with
    | lean => rfl
    | _ => cases h
  | told hlean hflag =>
    subst hlean
    exact Turn.told rfl hpc hflag
  | count hlev hle => exact Turn.count hlev fun h => (hle h).2
  | @advance r _ hlev hthr hlt =>
    refine Turn.advance _ (fun d hd => ?_) hlev hb hthr hlt
    cases V with
    | lean => cases hd; rfl
    | _ => cases hd
  | enter hdag => exact absurd hdag hV
  | _ => exact Turn.skip ⟨rfl, rfl, rfl, rfl, rfl, rfl, rfl, rfl, rfl⟩ rfl

/-- and so do their other steps. -/
theorem Acting.turn {a : Act} (h : Acting E self V P c a c' os) (hV : V ≠ .dag)
    (hgrows : ∀ k s j s' js os, P.step self k s j s' js os → s.Grows s')
    (haside : ∀ k s j s' js os, P.step self k s j s' js os → ∀ o ∈ os, Aside o) :
    Turn E self V.flagged c (.act a) c' os := by
  cases h with
  | boot hb hlive => exact Turn.boot _ hb hlive
  | task _ _ hstep hwork =>
    exact Turn.task hwork.toSameMain hwork.spb (hgrows _ _ _ _ _ _ hstep) (haside _ _ _ _ _ _ hstep)
  | coin hc =>
    cases V with
    | dag => exact absurd rfl hV
    | _ => exact Turn.process hc
  | report _ hpc =>
    cases V with
    | dag => exact absurd rfl hV
    | _ => exact Turn.report hpc
  | commitor hrun =>
    cases V with
    | dag => exact absurd rfl hV
    | _ => exact Turn.commitor hrun
  | makeBatch txs => exact Turn.skip ⟨rfl, rfl, rfl, rfl, rfl, rfl, rfl, rfl, rfl⟩ rfl
  | leave hdag | ask hdag | propose hdag | few hdag | callback hdag => exact absurd hdag hV

end Steps

/-- Where the main loop is in `processCoin`, it was there before, or its elector has named the leader, or
it has been told. -/
theorem Turn.tossing {E : Env D} {self : NodeID} {flagged : Bool} {c c' : Node D J}
    {x : Input (Msg D) Act} {os : List (NodeOut D)} (ht : Turn E self flagged c x c' os)
    {leader : NodeID} {view : ℤ} (hc : Tossing c' leader view) :
    Tossing c leader view ∨
      (∃ e, c.eletor.add E e = some (c'.eletor, .ok leader) ∧ leader ≠ NONE ∧ e.view = view) ∨
      ∃ r, x = .recv (.randomCoin r) ∧ c.coinViewFlags r.view = false ∧ r.leader = leader ∧
        r.view = view := by
  have hsame : c'.pc = c.pc → Tossing c leader view := fun he => by
    unfold Tossing at hc ⊢
    rwa [he] at hc
  cases ht with
  | aside hk _ _ => exact Or.inl (hsame hk.pc)
  | store hk _ => exact Or.inl (hsame hk.pc)
  | @elected e _ _ _ _ hadd hne _ _ =>
    obtain ⟨rfl, rfl⟩ := hc
    exact Or.inr (Or.inl ⟨e, hadd, hne, rfl⟩)
  | @told r _ _ hflag =>
    obtain ⟨rfl, rfl⟩ := hc
    exact Or.inr (Or.inr ⟨r, rfl, hflag, rfl, rfl⟩)
  | process hs => exact Or.inl (hs.tossing hc)
  | report _ => exact hc.elim
  | _ => exact Or.inl (hsame rfl)

/-- A report is made by the main loop, and tells the level of the leader's instance. -/
theorem Turn.of_report {E : Env D} {self : NodeID} {flagged : Bool} {c c' : Node D J}
    {x : Input (Msg D) Act} {os : List (NodeOut D)} (ht : Turn E self flagged c x c' os)
    {o : NodeOut D} (ho : o ∈ os) {r : ReportMsg D} (hr : o.msg = some (.report r)) :
    ∃ leader, x = .act .main ∧ c.pc = .report leader r.view ∧ r.author = self ∧
      (c.spbInstances (r.view, leader)).qcLEvel = (r.level, r.blockQc) ∧
      c'.spbInstances = c.spbInstances := by
  cases ht with
  | aside _ _ ha =>
    exact ((ha o ho).beside hr).elim
  | shares _ ha => obtain ⟨leader, -, -, rfl⟩ := ha o ho; cases hr
  | elected _ _ _ _ ha => obtain ⟨leader, -, -, rfl⟩ := ha o ho; cases hr
  | process hs =>
    cases hs with
    | handed _ _ => rw [List.mem_singleton.1 ho] at hr; cases hr
    | _ => exact absurd ho List.not_mem_nil
  | @report leader view hpc =>
    rw [List.mem_singleton.1 ho] at hr
    cases hr
    exact ⟨leader, rfl, hpc, rfl, rfl, rfl⟩
  | commitor _ => obtain ⟨b, -, rfl⟩ := List.mem_map.1 ho; cases hr
  | boot _ _ => rw [List.mem_singleton.1 ho] at hr; cases hr
  | advance _ _ _ _ _ _ => rw [List.mem_singleton.1 ho] at hr; cases hr
  | _ => exact absurd ho List.not_mem_nil

/-- The machines whose steps are turns. -/
structure Turns (E : Env D) (flagged : Bool)
    (M : Machine NodeID (Node D J) (Msg D) Act (Event D)) : Prop where
  init : ∀ i, M.init i = Node.new E
  booted : ∀ i c m r, M.recv i c m = some r → c.booted = true
  recv : ∀ i c m r, M.recv i c m = some r → Turn E i flagged c (.recv m) r.1 r.2
  act : ∀ i c a r, M.act i c a = some r → Turn E i flagged c (.act a) r.1 r.2

theorem Branches.turns {E : Env D} {V : Variant} {P : Goroutines D J}
    {M : Machine NodeID (Node D J) (Msg D) Act (Event D)} (hM : Branches E V P M) (hV : V ≠ .dag)
    (hgrows : ∀ i k s j s' js os, P.step i k s j s' js os → s.Grows s')
    (haside : ∀ i k s j s' js os, P.step i k s j s' js os → ∀ o ∈ os, Aside o) :
    Turns E V.flagged M where
  init := hM.init
  booted _ _ _ _ h := (Node.idle_of_ready (hM.recv _ _ _ _ h).1).1
  recv _ _ _ _ h := (hM.recv _ _ _ _ h).2.turn hV (hM.recv _ _ _ _ h).1
  act _ _ _ _ h := (hM.act _ _ _ _ h).turn hV (hgrows _) (haside _)

namespace Turns

variable {E : Env D} {flagged : Bool} {M : Machine NodeID (Node D J) (Msg D) Act (Event D)}
  {G : Machine.Guard NodeID (Node D J) (Msg D) Act (Event D)} {self : NodeID} {h : NodeHost D J}

theorem induction (hM : Turns E flagged M) {P : NodeHost D J → Prop}
    (start : P ⟨Node.new E, [], []⟩)
    (turn : ∀ h x c' os, M.Local G self h → P h → Turn E self flagged h.st x c' os →
      P ⟨c', h.received ++ x.heard, h.outs ++ os⟩)
    (hl : M.Local G self h) : P h := by
  induction hl with
  | start => simpa only [Machine.start, hM.init] using start
  | @recv h m s o hl _ hs ih => exact turn h (.recv m) s o hl ih (hM.recv _ _ _ _ hs)
  | @act h a s o hl _ hs ih =>
    simpa only [Input.heard, List.append_nil] using turn h (.act a) s o hl ih (hM.act _ _ _ _ hs)

theorem origin (hM : Turns E flagged M) (hl : M.Local G self h) {o : NodeOut D} (ho : o ∈ h.outs) :
    ∃ h₀ x c' os, M.Local G self h₀ ∧ G self h₀ x ∧ Turn E self flagged h₀.st x c' os ∧ o ∈ os ∧
      h₀.received ++ x.heard <+: h.received := by
  obtain ⟨h₀, x, r, hl₀, hg, hr, hor, hrec, -⟩ := hl.origin ho
  cases x with
  | recv m =>
    obtain ⟨⟨s, os⟩, hs, rfl⟩ := Option.map_eq_some_iff.1 hr
    exact ⟨h₀, .recv m, s, os, hl₀, hg, hM.recv _ _ _ _ hs, hor, hrec⟩
  | act a =>
    obtain ⟨⟨s, os⟩, hs, rfl⟩ := Option.map_eq_some_iff.1 hr
    exact ⟨h₀, .act a, s, os, hl₀, hg, hM.act _ _ _ _ hs, hor, by simpa [Input.heard] using hrec⟩

/-! ## The store -/

theorem store_source (hM : Turns E flagged M) (hl : M.Local G self h) {d : D} {b : Block D}
    (hb : getBlock h.st.store d = some b) :
    b.hash E = d ∧ ∃ p, Msg.propose p ∈ h.received ∧ p.b = b := by
  revert d b
  refine hM.induction (P := fun h => ∀ {d b}, getBlock h.st.store d = some b →
    b.hash E = d ∧ ∃ p, Msg.propose p ∈ h.received ∧ p.b = b) ?_ ?_ hl
  · intro d b hb
    simp [Node.new, getBlock] at hb
  · intro h x c' os _ ih ht d b hb
    have old : getBlock h.st.store d = some b →
        b.hash E = d ∧ ∃ p, Msg.propose p ∈ h.received ++ x.heard ∧ p.b = b := by
      intro hb
      obtain ⟨hd, p, hp, hpb⟩ := ih hb
      exact ⟨hd, p, List.mem_append_left _ hp, hpb⟩
    cases ht with
    | aside hk _ _ => exact old (hk.store ▸ hb)
    | @store p _ hk _ =>
      have hst : c'.store = storeBlock E h.st.store p.b := hk.store
      dsimp only at hb
      rw [hst] at hb
      rcases getBlock_storeBlock hb with ⟨rfl, rfl⟩ | hb
      · exact ⟨rfl, p, by simp, rfl⟩
      · exact old hb
    | process hp => cases hp <;> exact old hb
    | _ => exact old hb

/-! ## Views -/

@[simp] theorem countReport_view (c : Node D J) (r : ReportMsg D) :
    (c.countReport E r).1.view = c.view := rfl

@[simp] theorem countReport_booted (c : Node D J) (r : ReportMsg D) :
    (c.countReport E r).1.booted = c.booted := rfl

theorem countReport_nums (c : Node D J) (r : ReportMsg D) (view : ℤ) (level : ℕ) :
    (c.countReport E r).1.reportNums view level = c.reportNums view level +
      if Msg.isReport view level (.report r : Msg D) then 1 else 0 := by
  unfold Node.countReport
  by_cases hv : view = r.view
  · subst hv
    by_cases hl : level = r.level
    · subst hl
      simp
    · simp [Function.update_of_ne hl, Ne.symm hl]
  · simp [Function.update_of_ne hv, Ne.symm hv]

theorem reportNums_le (hM : Turns E flagged M) (hl : M.Local G self h) (view : ℤ) (level : ℕ) :
    h.st.reportNums view level ≤ h.received.countP (Msg.isReport view level) := by
  refine hM.induction (P := fun h => h.st.reportNums view level ≤
    h.received.countP (Msg.isReport view level)) ?_ ?_ hl
  · simp [Node.new]
  · intro h x c' os _ ih ht
    have old : h.st.reportNums view level ≤
        (h.received ++ x.heard).countP (Msg.isReport view level) := by
      rw [List.countP_append]
      omega
    cases ht with
    | aside hk _ _ => rw [hk.reportNums]; exact old
    | store hk _ => rw [hk.reportNums]; exact old
    | count _ _ =>
      rw [countReport_nums, Input.heard, List.countP_append, List.countP_singleton]
      omega
    | advance batch _ _ _ _ _ =>
      change (Node.countReport E h.st _).1.reportNums view level ≤ _
      rw [countReport_nums, Input.heard, List.countP_append, List.countP_singleton]
      omega
    | process hp => cases hp <;> exact old
    | _ => exact old

/-- The report counters of a view that may not be left yet. -/
structure Below (E : Env D) (nums : ℕ → ℕ) : Prop where
  two : nums LEVEL_2 = 0
  one : nums LEVEL_1 < E.hightThreshold
  zero : nums LEVEL_0 < E.hightThreshold

theorem countReport_false {c : Node D J} {r : ReportMsg D} :
    (c.countReport E r).2 = false ↔ (c.countReport E r).1.reportNums r.view LEVEL_2 ≠ 1 ∧
      (c.countReport E r).1.reportNums r.view LEVEL_1 ≠ E.hightThreshold ∧
      (c.countReport E r).1.reportNums r.view LEVEL_0 ≠ E.hightThreshold := by
  simp [Node.countReport]

/-- A node stays in a view while no threshold of reports has been reached. -/
theorem below (hM : Turns E flagged M) (hl : M.Local G self h) {view : ℤ} (hv : h.st.view ≤ view) :
    Below E (h.st.reportNums view) := by
  have hpos : 0 < E.hightThreshold := Nat.succ_pos _
  revert view
  refine hM.induction (P := fun h => ∀ {view}, h.st.view ≤ view → Below E (h.st.reportNums view))
    ?_ ?_ hl
  · intro view _
    exact ⟨rfl, hpos, hpos⟩
  · intro h x c' os _ ih ht view hv
    cases ht with
    | aside hk _ _ => rw [hk.reportNums]; exact ih (hk.view ▸ hv)
    | store hk _ => rw [hk.reportNums]; exact ih (hk.view ▸ hv)
    | @count r hlev hstay =>
      have hv : h.st.view ≤ view := hv
      obtain ⟨h2, h1, h0⟩ := ih hv
      by_cases hr : r.view = view
      · have hf : (h.st.countReport E r).2 = false := by
          rw [Bool.eq_false_iff]
          intro ht
          have := hstay ht
          omega
        obtain ⟨h2', h1', h0'⟩ := countReport_false.1 hf
        rw [hr, countReport_nums] at h2' h1' h0'
        have hle : ∀ level, (if Msg.isReport view level (.report r : Msg D) then 1 else 0) ≤ 1 :=
          fun level => by split <;> omega
        have := hle LEVEL_2
        have := hle LEVEL_1
        have := hle LEVEL_0
        refine ⟨?_, ?_, ?_⟩ <;> rw [countReport_nums] <;> omega
      · refine ⟨?_, ?_, ?_⟩ <;> rw [countReport_nums] <;> simpa [hr]
    | @advance r batch _ _ _ hlev _ hthr hlt =>
      have hv : r.view + 1 ≤ view := hv
      have hr : ¬ r.view = view := by omega
      obtain ⟨h2, h1, h0⟩ := @ih view (by omega)
      have hn : ∀ level, (h.st.countReport E r).1.reportNums view level =
          h.st.reportNums view level := fun level => by rw [countReport_nums]; simp [hr]
      exact ⟨(hn _).trans h2, lt_of_eq_of_lt (hn _) h1, lt_of_eq_of_lt (hn _) h0⟩
    | process hp => cases hp <;> exact ih hv
    | _ => exact ih hv

/-! ## The proposals of height 1 -/

theorem started (hM : Turns E flagged M) (hl : M.Local G self h) :
    h.st.height = HEIGHT_1 ∧ 0 ≤ h.st.view ∧ (h.st.booted = false → h.st.view = 0) := by
  refine hM.induction (P := fun h => h.st.height = HEIGHT_1 ∧ 0 ≤ h.st.view ∧
    (h.st.booted = false → h.st.view = 0)) ⟨rfl, le_rfl, fun _ => rfl⟩ ?_ hl
  intro h x c' os _ ih ht
  cases ht with
  | aside hk _ _ => rw [hk.height, hk.view, hk.booted]; exact ih
  | store hk _ => rw [hk.height, hk.view, hk.booted]; exact ih
  | boot batch hb => exact ⟨ih.1, ih.2.1, fun hb' => absurd hb' (by simp)⟩
  | @advance r batch _ _ _ _ hb _ hlt =>
    refine ⟨ih.1, ?_, fun hb' => ?_⟩
    · have := ih.2.1
      change 0 ≤ r.view + 1
      omega
    · exact (Bool.false_ne_true (hb'.symm.trans hb)).elim
  | process hp => cases hp <;> exact ih
  | _ => exact ih

theorem carries_first_of_aside {k : Key} {os : List (NodeOut D)} (hos : ∀ o ∈ os, Aside o) :
    os.countP (Out.carries (Msg.isPropose k HEIGHT_1)) = 0 := by
  refine List.countP_eq_zero.2 fun o ho hc => ?_
  obtain ⟨m, hm, hP⟩ := Out.carries_iff.1 hc
  have := (hos o ho).beside hm
  cases m <;> simp_all [Msg.Beside]

theorem carries_first_of_announced {k : Key} {os : List (NodeOut D)}
    {res : Except ElectErr NodeID} {view : ℤ} (hos : ∀ o ∈ os, Announced E self res view o) :
    os.countP (Out.carries (Msg.isPropose k HEIGHT_1)) = 0 := by
  refine List.countP_eq_zero.2 fun o ho hc => ?_
  obtain ⟨leader, -, -, rfl⟩ := hos o ho
  simp at hc

theorem countP_emit (P : Msg D → Bool) (bs : List (Block D)) :
    (bs.map fun b => (.event (.emit b) : NodeOut D)).countP (Out.carries P) = 0 :=
  List.countP_eq_zero.2 fun o ho => by
    obtain ⟨b, -, rfl⟩ := List.mem_map.1 ho
    simp

/-- **A node makes at most one height-1 proposal in a view**, and none before it is there. -/
theorem first_once (hM : Turns E flagged M) (hl : M.Local G self h) (view : ℤ) :
    h.outs.countP (Out.carries (Msg.isPropose (view, self) HEIGHT_1)) ≤ 1 ∧
      (h.outs.countP (Out.carries (Msg.isPropose (view, self) HEIGHT_1)) ≠ 0 →
        h.st.booted = true ∧ view ≤ h.st.view) := by
  refine hM.induction (P := fun h =>
    h.outs.countP (Out.carries (Msg.isPropose (view, self) HEIGHT_1)) ≤ 1 ∧
      (h.outs.countP (Out.carries (Msg.isPropose (view, self) HEIGHT_1)) ≠ 0 →
        h.st.booted = true ∧ view ≤ h.st.view)) (by simp) ?_ hl
  intro h x c' os hl ih ht
  obtain ⟨hheight, hview, hboot⟩ := hM.started hl
  rw [List.countP_append]
  cases ht with
  | aside hk _ ho => rw [carries_first_of_aside ho, hk.booted, hk.view]; exact ih
  | store hk _ => rw [hk.booted, hk.view]; exact ih
  | shares _ ho => rw [carries_first_of_announced ho]; exact ih
  | elected _ _ _ _ ho => rw [carries_first_of_announced ho]; exact ih
  | boot batch hb =>
    have h0 : h.outs.countP (Out.carries (Msg.isPropose (view, self) HEIGHT_1)) = 0 := by
      by_contra hne
      exact Bool.false_ne_true (hb.symm.trans (ih.2 hne).1)
    rw [h0, hboot hb]
    by_cases hv : view = 0
    · simp [hv, newProposeMsg, hheight]
    · simp [newProposeMsg, Ne.symm hv]
  | @advance r batch _ _ _ _ hb _ hlt =>
    by_cases hv : r.view + 1 = view
    · subst hv
      have h0 : h.outs.countP (Out.carries (Msg.isPropose (r.view + 1, self) HEIGHT_1)) = 0 := by
        by_contra hne
        have := (ih.2 hne).2
        omega
      simp [h0, newProposeMsg, hb]
    · refine ⟨by simpa [newProposeMsg, hv] using ih.1, fun hne => ?_⟩
      obtain ⟨hb', hle⟩ := ih.2 (by simpa [newProposeMsg, hv] using hne)
      exact ⟨hb', by change view ≤ r.view + 1; omega⟩
  | process hp => cases hp <;> exact ih
  | commitor _ => rw [countP_emit]; exact ih
  | _ => exact ih

/-- The report `r` is one that `handleReportMsg` leaves the view with, among the messages `l`. -/
def Justified (E : Env D) (l : List (Msg D)) (r : ReportMsg D) : Prop :=
  r.level = LEVEL_2 ∨ ((r.level = LEVEL_1 ∨ r.level = LEVEL_0) ∧
    E.hightThreshold ≤ l.countP (Msg.isReport r.view r.level))

theorem Justified.mono {l l' : List (Msg D)} (hll : l <+: l') {r : ReportMsg D}
    (h : Justified E l r) : Justified E l' r :=
  h.imp_right fun ⟨hlev, hle⟩ => ⟨hlev, hle.trans (hll.sublist.countP_le)⟩

theorem justified_of_advance (hM : Turns E flagged M) (hl : M.Local G self h) {r : ReportMsg D}
    (hthr : (h.st.countReport E r).2 = true) (hlt : h.st.view < r.view + 1) :
    Justified E (h.received ++ [Msg.report r]) r := by
  have hv : h.st.view ≤ r.view := by omega
  obtain ⟨h2, h1, h0⟩ := hM.below hl hv
  have hle : ∀ level, (h.st.countReport E r).1.reportNums r.view level ≤
      (h.received ++ [Msg.report r]).countP (Msg.isReport r.view level) := by
    intro level
    have := hM.reportNums_le hl r.view level
    rw [countReport_nums, List.countP_append, List.countP_singleton]
    omega
  have hlevel : ∀ level, h.st.reportNums r.view level ≠
      (h.st.countReport E r).1.reportNums r.view level → r.level = level := by
    intro level hne
    rw [countReport_nums] at hne
    by_contra hl
    simp [hl] at hne
  have hcases : (h.st.countReport E r).1.reportNums r.view LEVEL_2 = 1 ∨
      (h.st.countReport E r).1.reportNums r.view LEVEL_1 = E.hightThreshold ∨
      (h.st.countReport E r).1.reportNums r.view LEVEL_0 = E.hightThreshold := by
    by_contra hno
    rw [not_or, not_or] at hno
    exact Bool.false_ne_true ((countReport_false.2 hno).symm.trans hthr)
  rcases hcases with hc | hc | hc
  · exact Or.inl (hlevel _ (by omega))
  · have hr := hlevel LEVEL_1 (by omega)
    exact Or.inr ⟨Or.inl hr, by rw [hr, ← hc]; exact hle _⟩
  · have hr := hlevel LEVEL_0 (by omega)
    exact Or.inr ⟨Or.inr hr, by rw [hr, ← hc]; exact hle _⟩

/-- What a height-1 proposal of node `i` looks like, and what it rests on. -/
structure FirstProposal (E : Env D) (i : NodeID) (l : List (Msg D)) (p : ProposeMsg D) :
    Prop where
  author : p.author = i ∧ p.b.author = i
  view : p.view = p.b.view
  height : p.height = p.b.height
  references : p.b.references = []
  docG : ∀ d, p.docG = some d → d.shares = []
  nonneg : 0 ≤ p.view
  parent : (p.view = 0 ∧ p.b.qc = none) ∨ ∃ r, Msg.report r ∈ l ∧ r.view + 1 = p.view ∧
    p.b.qc = r.blockQc ∧ Justified E l r

theorem FirstProposal.qcs {i : NodeID} {l : List (Msg D)} {p : ProposeMsg D}
    (hp : FirstProposal E i l p) {q : BlockQC D} (hq : q ∈ (Msg.propose p).qcs) :
    ∃ r, Msg.report r ∈ l ∧ q ∈ (Msg.report r).qcs := by
  have hdoc : p.docG.toList.flatMap (fun d => d.shares.flatMap fun r => r.blockQc.toList) = [] :=
    List.flatMap_eq_nil_iff.2 fun d hd => by rw [hp.docG d (Option.mem_toList.1 hd)]; rfl
  simp only [Msg.qcs, hp.references, hdoc, List.append_nil] at hq
  rcases hp.parent with ⟨-, hn⟩ | ⟨r, hr, -, hqr, -⟩
  · rw [hn] at hq
    exact absurd hq List.not_mem_nil
  · rw [hqr] at hq
    exact ⟨r, hr, hq⟩

theorem FirstProposal.linked {i : NodeID} {l : List (Msg D)} {p : ProposeMsg D}
    (hp : FirstProposal E i l p) (hh : p.height = HEIGHT_1) (hl : ∀ m ∈ l, m.Linked) :
    (Msg.propose p).Linked := by
  refine ⟨fun _ q hq => ?_, fun h₂ => absurd (hh.symm.trans h₂) (by decide)⟩
  rcases hp.parent with ⟨-, hn⟩ | ⟨r, hr, hview, hqr, -⟩
  · rw [hn] at hq
    cases hq
  · have : q.view ≤ r.view := hl _ hr q (hqr ▸ hq)
    omega

theorem proposed_first (hM : Turns E flagged M) (hl : M.Local G self h) {o : NodeOut D}
    (ho : o ∈ h.outs) {p : ProposeMsg D} (hp : o.msg = some (.propose p))
    (hh : p.height = HEIGHT_1) : FirstProposal E self h.received p := by
  obtain ⟨h₀, x, c', os, hl₀, hg, ht, hos, hpre⟩ := hM.origin hl ho
  cases ht with
  | aside _ _ ha =>
    exact absurd hh ((ha o hos).beside hp)
  | shares _ ha => obtain ⟨leader, -, -, rfl⟩ := ha o hos; cases hp
  | elected _ _ _ _ ha => obtain ⟨leader, -, -, rfl⟩ := ha o hos; cases hp
  | boot batch hb =>
    rw [List.mem_singleton.1 hos] at hp
    cases hp
    exact ⟨⟨rfl, rfl⟩, rfl, rfl, rfl, (fun _ h => nomatch h), (hM.started hl₀).2.1,
      Or.inl ⟨(hM.started hl₀).2.2 hb, rfl⟩⟩
  | @advance r batch _ _ hd _ _ hthr hlt =>
    rw [List.mem_singleton.1 hos] at hp
    cases hp
    have hmem : Msg.report r ∈ h.received := hpre.subset (by simp)
    have hview : 0 ≤ h₀.st.view := (hM.started hl₀).2.1
    exact ⟨⟨rfl, rfl⟩, rfl, rfl, rfl, hd, (by change 0 ≤ r.view + 1; omega),
      Or.inr ⟨r, hmem, rfl, rfl, (hM.justified_of_advance hl₀ hthr hlt).mono hpre⟩⟩
  | process hs =>
    cases hs with
    | handed _ _ => rw [List.mem_singleton.1 hos] at hp; cases hp
    | _ => exact absurd hos List.not_mem_nil
  | report _ => rw [List.mem_singleton.1 hos] at hp; cases hp
  | commitor _ => obtain ⟨b, -, rfl⟩ := List.mem_map.1 hos; cases hp
  | _ => exact absurd hos List.not_mem_nil

/-! ## The coin -/

/-- The leader of the view is `leader`, as far as the messages `l` tell. -/
def Led (E : Env D) (l : List (Msg D)) (leader : NodeID) (view : ℤ) : Prop :=
  Elected E leader view ∨ ∃ r, Msg.randomCoin r ∈ l ∧ r.leader = leader ∧ r.view = view

theorem Led.mono {l l' : List (Msg D)} (hll : l <+: l') {leader : NodeID} {view : ℤ}
    (h : Led E l leader view) : Led E l' leader view :=
  h.imp_right fun ⟨r, hr, hrest⟩ => ⟨r, hll.subset hr, hrest⟩

/-- What the tests of `processCoin` have established when it fetches a block of this height. -/
def Tested (s : SPB D) (height : ℕ) : Prop :=
  (height = HEIGHT_2 ∧ s.speedCert = true) ∨ (height = HEIGHT_1 ∧ s.decCert = true)

theorem Tested.grows {s s' : SPB D} (hs : s.Grows s') {height : ℕ} (h : Tested s height) :
    Tested s' height :=
  h.imp (fun ⟨hh, h⟩ => ⟨hh, hs.speedCert h⟩) fun ⟨hh, h⟩ => ⟨hh, hs.decCert h⟩

/-- An instance has recorded the hash `d` at a height: that of a received proposal, or none yet. -/
def Recorded (E : Env D) (l : List (Msg D)) (k : Key) (height : ℕ) (d : D) : Prop :=
  d = E.zero ∨ ∃ p, Msg.propose p ∈ l ∧ k = (p.view, p.author) ∧ p.height = height ∧
    d = p.b.hash E

theorem Recorded.mono {l l' : List (Msg D)} (hll : l <+: l') {k : Key} {height : ℕ} {d : D}
    (h : Recorded E l k height d) : Recorded E l' k height d :=
  h.imp_right fun ⟨p, hp, hrest⟩ => ⟨p, hll.subset hp, hrest⟩

/-- What holds of a block that is handed to the commitor. -/
structure Handing (E : Env D) (h : NodeHost D J) (leader : NodeID) (view : ℤ) (height : ℕ)
    (b : Block D) : Prop where
  led : Led E h.received leader view
  tested : Tested (h.st.spbInstances (view, leader)) height
  stored : ∃ p, Msg.propose p ∈ h.received ∧ p.b = b
  recorded : Recorded E h.received (view, leader) height (b.hash E)

/-- What holds where the main loop is. -/
def PcOk (E : Env D) (h : NodeHost D J) : Pc D → Prop
  | .coin leader view => Led E h.received leader view
  | .decide leader view => Led E h.received leader view
  | .fetch leader view height => Led E h.received leader view ∧
      Tested (h.st.spbInstances (view, leader)) height
  | .commit leader view height b => Handing E h leader view height b
  | .report leader view => Led E h.received leader view
  | _ => True

/-- The later host knows more. -/
structure Knows (h h' : NodeHost D J) : Prop where
  received : h.received <+: h'.received
  grows : ∀ k, (h.st.spbInstances k).Grows (h'.st.spbInstances k)

theorem Handing.mono {h h' : NodeHost D J} (hh : Knows h h') {leader : NodeID} {view : ℤ}
    {height : ℕ} {b : Block D} (ho : Handing E h leader view height b) :
    Handing E h' leader view height b where
  led := ho.led.mono hh.received
  tested := ho.tested.grows (hh.grows _)
  stored := let ⟨p, hp, hb⟩ := ho.stored; ⟨p, hh.received.subset hp, hb⟩
  recorded := ho.recorded.mono hh.received

theorem PcOk.mono {h h' : NodeHost D J} (hh : Knows h h') {pc : Pc D} (ho : PcOk E h pc) :
    PcOk E h' pc := by
  cases pc with
  | coin leader view => exact Led.mono hh.received ho
  | decide leader view => exact Led.mono hh.received ho
  | fetch leader view height => exact ⟨ho.1.mono hh.received, ho.2.grows (hh.grows _)⟩
  | commit leader view height b => exact Handing.mono hh ho
  | report leader view => exact Led.mono hh.received ho
  | _ => trivial

theorem knows_of_turn {x : Input (Msg D) Act} {c' : Node D J} {os : List (NodeOut D)}
    (ht : Turn E self flagged h.st x c' os) :
    Knows h ⟨c', h.received ++ x.heard, h.outs ++ os⟩ := by
  refine ⟨List.prefix_append _ _, fun k => ?_⟩
  cases ht with
  | aside _ hg _ => exact hg k
  | store _ hs => rw [hs]; exact SPB.Grows.refl _
  | process hp => cases hp <;> exact SPB.Grows.refl _
  | _ => exact SPB.Grows.refl _

/-- **What a node hands to its commitor**, and why. -/
theorem handing (hM : Turns E flagged M) (hl : M.Local G self h)
    (hrec : ∀ h, M.Local G self h → ∀ k height, height ≤ HEIGHT_2 →
      Recorded E h.received k height ((h.st.spbInstances k).blockHash height)) :
    PcOk E h h.st.pc ∧ ∀ leader view height b,
      Out.event (.handed leader view height b) ∈ h.outs → Handing E h leader view height b := by
  refine hM.induction (P := fun h => PcOk E h h.st.pc ∧ ∀ leader view height b,
    Out.event (.handed leader view height b) ∈ h.outs → Handing E h leader view height b)
    ⟨trivial, by simp⟩ ?_ hl
  intro h x c' os hl ⟨ihpc, ihout⟩ ht
  have hk := knows_of_turn ht
  have hpc : c'.pc = h.st.pc → PcOk E ⟨c', h.received ++ x.heard, h.outs ++ os⟩ c'.pc :=
    fun he => he ▸ ihpc.mono hk
  have hout : (∀ leader view height b, Out.event (.handed leader view height b) ∈ os →
      Handing E ⟨c', h.received ++ x.heard, h.outs ++ os⟩ leader view height b) →
      ∀ leader view height b, Out.event (.handed leader view height b) ∈ h.outs ++ os →
      Handing E ⟨c', h.received ++ x.heard, h.outs ++ os⟩ leader view height b := by
    intro hnew leader view height b ho
    rcases List.mem_append.1 ho with ho | ho
    · exact (ihout _ _ _ _ ho).mono hk
    · exact hnew _ _ _ _ ho
  cases ht with
  | aside hkeep _ ha =>
    exact ⟨hpc hkeep.pc, hout fun _ _ _ _ ho => absurd rfl (ha _ ho).msg_ne_none⟩
  | store hkeep _ => exact ⟨hpc hkeep.pc, hout (by simp)⟩
  | shares hadd ha =>
    refine ⟨hpc rfl, hout fun _ _ _ _ ho => ?_⟩
    obtain ⟨_, -, -, he⟩ := ha _ ho
    cases he
  | elected _ hadd hne _ ha =>
    refine ⟨Or.inl (elected_of_add hadd hne), hout fun _ _ _ _ ho => ?_⟩
    obtain ⟨_, -, -, he⟩ := ha _ ho
    cases he
  | @told r _ _ _ => exact ⟨Or.inr ⟨r, by simp, rfl, rfl⟩, hout (by simp)⟩
  | process hp =>
    cases hp with
    | speed hpc' hs =>
      rw [hpc'] at ihpc
      exact ⟨⟨Led.mono hk.received ihpc, Or.inl ⟨rfl, hs⟩⟩, hout (by simp)⟩
    | slow hpc' =>
      rw [hpc'] at ihpc
      exact ⟨Led.mono hk.received ihpc, hout (by simp)⟩
    | second hpc' hs =>
      rw [hpc'] at ihpc
      exact ⟨⟨Led.mono hk.received ihpc, Or.inr ⟨rfl, hs⟩⟩, hout (by simp)⟩
    | undecided hpc' _ =>
      rw [hpc'] at ihpc
      exact ⟨Led.mono hk.received ihpc, hout (by simp)⟩
    | missing _ => exact ⟨trivial, hout (by simp)⟩
    | @found leader view height b hpc' hb =>
      rw [hpc'] at ihpc
      obtain ⟨hd, p, hp, hpb⟩ := hM.store_source hl hb
      have hle : height ≤ HEIGHT_2 := by rcases ihpc.2 with ⟨rfl, -⟩ | ⟨rfl, -⟩ <;> decide
      refine ⟨Handing.mono hk ⟨ihpc.1, ihpc.2, ⟨p, hp, hpb⟩, ?_⟩, hout (by simp)⟩
      rw [hd]
      exact hrec h hl _ _ hle
    | handed hpc' hcm =>
      rw [hpc'] at ihpc
      refine ⟨Led.mono hk.received (Handing.led ihpc), hout fun _ _ _ _ ho => ?_⟩
      cases List.mem_singleton.1 ho
      exact Handing.mono hk ihpc
  | report _ => exact ⟨trivial, hout (by simp)⟩
  | commitor _ =>
    refine ⟨hpc rfl, hout fun _ _ _ _ ho => ?_⟩
    obtain ⟨b, -, he⟩ := List.mem_map.1 ho
    cases he
  | _ => exact ⟨hpc rfl, hout (by simp)⟩
theorem led (hM : Turns E flagged M) (hl : M.Local G self h)
    (hrec : ∀ h, M.Local G self h → ∀ k height, height ≤ HEIGHT_2 →
      Recorded E h.received k height ((h.st.spbInstances k).blockHash height))
    {leaders : ℤ → NodeID}
    (hcoin : ∀ leader view, Elected E leader view → leader = leaders view)
    (hco : ∀ r, Msg.randomCoin r ∈ h.received → r.leader = leaders r.view) {leader : NodeID}
    {view : ℤ} (hpc : h.st.pc = .report leader view) : leader = leaders view := by
  have hok := (hM.handing hl hrec).1
  rw [hpc] at hok
  rcases hok with he | ⟨r, hr, rfl, rfl⟩
  · exact hcoin _ _ he
  · exact hco r hr

/-! ## The log -/

theorem emitted_eq_nil {os : List (NodeOut D)}
    (h : ∀ o ∈ os, ∀ b, o ≠ Out.event (.emit b)) : emitted os = [] := by
  refine List.filterMap_eq_nil_iff.2 fun o ho => ?_
  have := h o ho
  cases o with
  | event e =>
    cases e with
    | emit b => exact absurd rfl (this b)
    | handed _ _ _ _ => rfl
  | _ => rfl

theorem emitted_emit (bs : List (Block D)) :
    emitted (bs.map fun b => (.event (.emit b) : NodeOut D)) = bs := by
  simp [emitted, List.filterMap_map]

/-- **The log of a node**, over a forest that has all the blocks it has received. -/
theorem log (hM : Turns E flagged M) (hl : M.Local G self h)
    (hrec : ∀ h, M.Local G self h → ∀ k height, height ≤ HEIGHT_2 →
      Recorded E h.received k height ((h.st.spbInstances k).blockHash height))
    {T : BlockTree E} (hT : ∀ p, Msg.propose p ∈ h.received → T.mem p.b) :
    ∃ passed, LogInv T h.st.commitor passed (emitted h.outs) ∧
      ∀ b ∈ passed, ∃ leader view height, Out.event (.handed leader view height b) ∈ h.outs := by
  revert hT
  refine hM.induction (P := fun h => (∀ p, Msg.propose p ∈ h.received → T.mem p.b) →
    ∃ passed, LogInv T h.st.commitor passed (emitted h.outs) ∧
      ∀ b ∈ passed, ∃ leader view height, Out.event (.handed leader view height b) ∈ h.outs)
    (fun _ => ⟨[], LogInv.new T, by simp⟩) ?_ hl
  intro h x c' os hl ih ht hT
  have hT₀ : ∀ p, Msg.propose p ∈ h.received → T.mem p.b :=
    fun p hp => hT p (List.mem_append_left _ hp)
  obtain ⟨passed, hinv, hsrc⟩ := ih hT₀
  have hsrc : ∀ b ∈ passed, ∃ leader view height,
      Out.event (.handed leader view height b) ∈ h.outs ++ os := by
    intro b hb
    obtain ⟨l, v, ht, ho⟩ := hsrc b hb
    exact ⟨l, v, ht, List.mem_append_left _ ho⟩
  -- a turn that leaves the commitor alone and emits nothing
  have hsame : c'.commitor = h.st.commitor → (∀ o ∈ os, ∀ b, o ≠ Out.event (.emit b)) →
      ∃ passed, LogInv T c'.commitor passed (emitted (h.outs ++ os)) ∧ ∀ b ∈ passed,
        ∃ leader view height, Out.event (.handed leader view height b) ∈ h.outs ++ os := by
    intro hc hno
    refine ⟨passed, ?_, hsrc⟩
    rw [emitted, List.filterMap_append, ← emitted, ← emitted, emitted_eq_nil hno, List.append_nil, hc]
    exact hinv
  cases ht with
  | aside hkeep _ ha =>
    exact hsame hkeep.commitor fun o ho b he => by subst he; exact (ha _ ho).msg_ne_none rfl
  | store hkeep _ => exact hsame hkeep.commitor (by simp)
  | shares _ ha =>
    refine hsame rfl fun o ho b he => ?_
    obtain ⟨_, -, -, he'⟩ := ha o ho
    rw [he'] at he
    cases he
  | elected _ _ _ _ ha =>
    refine hsame rfl fun o ho b he => ?_
    obtain ⟨_, -, -, he'⟩ := ha o ho
    rw [he'] at he
    cases he
  | process hp =>
    cases hp with
    | @handed leader view height b cm hpc hcm =>
      have hok := (hM.handing hl hrec).1
      rw [hpc] at hok
      obtain ⟨p, hp, hpb⟩ := Handing.stored hok
      refine ⟨if h.st.commitor.filtered b then passed else passed ++ [b], ?_, ?_⟩
      · have := hinv.commit (hpb ▸ hT₀ p hp) hcm
        simpa [emitted] using this
      · intro x hx
        split at hx
        · exact hsrc x hx
        · rcases List.mem_append.1 hx with hx | hx
          · exact hsrc x hx
          · rw [List.mem_singleton.1 hx]
            exact ⟨leader, view, height, by simp⟩
    | _ => exact hsame rfl (by simp)
  | @commitor cm bs hrun =>
    refine ⟨passed, ?_, hsrc⟩
    rw [emitted, List.filterMap_append, ← emitted, ← emitted, emitted_emit]
    refine hinv.run (fun d b hb => ?_) hrun
    obtain ⟨hd, p, hp, hpb⟩ := hM.store_source hl hb
    exact ⟨hpb ▸ hT₀ p hp, hd⟩
  | _ => exact hsame rfl (by simp)

/-! ## Reports and coins -/

theorem reported (hM : Turns E flagged M) (hl : M.Local G self h) {o : NodeOut D}
    (ho : o ∈ h.outs) {r : ReportMsg D} (hr : o.msg = some (.report r)) :
    ∃ h₀ leader, M.Local G self h₀ ∧ G self h₀ (.act .main) ∧ h₀.received <+: h.received ∧
      h₀.st.pc = .report leader r.view ∧ r.author = self ∧
      (h₀.st.spbInstances (r.view, leader)).qcLEvel = (r.level, r.blockQc) := by
  obtain ⟨h₀, x, c', os, hl₀, hg, ht, hos, hpre⟩ := hM.origin hl ho
  obtain ⟨leader, rfl, hpc, ha, hlev, -⟩ := ht.of_report hos hr
  exact ⟨h₀, leader, hl₀, hg, (List.prefix_append _ _).trans hpre, hpc, ha, hlev⟩

theorem announcing (hM : Turns E flagged M) (hl : M.Local G self h) {o : NodeOut D}
    (ho : o ∈ h.outs) {r : RandomCoinMsg} (hr : o.msg = some (.randomCoin r)) :
    ∃ (el el' : Elector) (e : ElectMsg) (leader : NodeID), el.add E e = some (el', .ok leader) ∧
      leader ≠ NONE ∧ o = .others (.randomCoin (newRandomCoinMsg E leader self e.view)) := by
  obtain ⟨h₀, x, c', os, hl₀, hg, ht, hos, hpre⟩ := hM.origin hl ho
  cases ht with
  | aside _ _ ha =>
    exact ((ha o hos).beside hr).elim
  | shares hadd ha =>
    obtain ⟨leader, rfl, hne, ho⟩ := ha o hos
    exact ⟨_, _, _, leader, hadd, hne, ho⟩
  | elected _ hadd hne _ ha =>
    obtain ⟨leader, he, -, ho⟩ := ha o hos
    cases he
    exact ⟨_, _, _, _, hadd, hne, ho⟩
  | process hs =>
    cases hs with
    | handed _ _ => rw [List.mem_singleton.1 hos] at hr; cases hr
    | _ => exact absurd hos List.not_mem_nil
  | report _ => rw [List.mem_singleton.1 hos] at hr; cases hr
  | commitor _ => obtain ⟨b, -, rfl⟩ := List.mem_map.1 hos; cases hr
  | boot _ _ => rw [List.mem_singleton.1 hos] at hr; cases hr
  | advance _ _ _ _ _ _ => rw [List.mem_singleton.1 hos] at hr; cases hr
  | _ => exact absurd hos List.not_mem_nil

theorem announced (hM : Turns E flagged M) (hl : M.Local G self h) {o : NodeOut D}
    (ho : o ∈ h.outs) {r : RandomCoinMsg} (hr : o.msg = some (.randomCoin r)) :
    Elected E r.leader r.view := by
  obtain ⟨el, el', e, leader, hadd, hne, rfl⟩ := hM.announcing hl ho hr
  cases hr
  exact elected_of_add hadd hne

/-- The instance that is about to be reported. -/
def reporting : Pc D → Option Key
  | .report leader view => some (view, leader)
  | _ => none

/-- The view that the main loop is busy with. -/
def busy : Pc D → Option ℤ
  | .coin _ view => some view
  | .decide _ view => some view
  | .fetch _ view _ => some view
  | .commit _ view _ _ => some view
  | .report _ view => some view
  | _ => none

theorem busy_of_coinStep {second : NodeID → ℤ → Bool} {c c' : Node D J} {os : List (NodeOut D)}
    (h : CoinStep second c c' os) {view : ℤ} (hb : busy c'.pc = some view) :
    busy c.pc = some view := by
  cases h with
  | speed hpc _ => rw [hpc]; exact hb
  | slow hpc => rw [hpc]; exact hb
  | second hpc _ => rw [hpc]; exact hb
  | undecided hpc _ => rw [hpc]; exact hb
  | missing _ => cases hb
  | found hpc _ => rw [hpc]; exact hb
  | handed hpc _ => rw [hpc]; exact hb

theorem carries_report_of_aside {view : ℤ} {os : List (NodeOut D)} (hos : ∀ o ∈ os, Aside o) :
    os.countP (Out.carries (Msg.isReportOf view)) = 0 := by
  refine List.countP_eq_zero.2 fun o ho hc => ?_
  obtain ⟨m, hm, hP⟩ := Out.carries_iff.1 hc
  have := (hos o ho).beside hm
  cases m <;> simp_all [Msg.Beside]

theorem carries_report_of_announced {view' : ℤ} {os : List (NodeOut D)}
    {res : Except ElectErr NodeID} {view : ℤ} (hos : ∀ o ∈ os, Announced E self res view o) :
    os.countP (Out.carries (Msg.isReportOf view')) = 0 := by
  refine List.countP_eq_zero.2 fun o ho hc => ?_
  obtain ⟨leader, -, -, rfl⟩ := hos o ho
  simp at hc

/-- **A node that keeps `coinViewFlags` makes at most one report of a view.** -/
theorem report_once (hM : Turns E true M) (hl : M.Local G self h) (view : ℤ) :
    h.outs.countP (Out.carries (Msg.isReportOf view)) ≤ 1 ∧
      (h.outs.countP (Out.carries (Msg.isReportOf view)) ≠ 0 → h.st.coinViewFlags view = true) ∧
      (busy h.st.pc = some view → h.st.coinViewFlags view = false) := by
  refine hM.induction (P := fun h => h.outs.countP (Out.carries (Msg.isReportOf view)) ≤ 1 ∧
    (h.outs.countP (Out.carries (Msg.isReportOf view)) ≠ 0 → h.st.coinViewFlags view = true) ∧
    (busy h.st.pc = some view → h.st.coinViewFlags view = false))
    ⟨by simp, by simp, fun h => by cases h⟩ ?_ hl
  intro h x c' os _ ih ht
  obtain ⟨ih₁, ih₂, ih₃⟩ := ih
  rw [List.countP_append]
  cases ht with
  | aside hk _ ho =>
    rw [carries_report_of_aside ho, hk.coinViewFlags, hk.pc]
    exact ⟨ih₁, ih₂, ih₃⟩
  | store hk _ => rw [hk.coinViewFlags, hk.pc]; exact ⟨ih₁, ih₂, ih₃⟩
  | shares _ ho => rw [carries_report_of_announced ho]; exact ⟨ih₁, ih₂, ih₃⟩
  | elected _ _ _ hf ho =>
    rw [carries_report_of_announced ho]
    refine ⟨ih₁, ih₂, fun hb => ?_⟩
    cases hb
    exact hf rfl
  | told _ _ hf =>
    refine ⟨ih₁, ih₂, fun hb => ?_⟩
    cases hb
    exact hf
  | process hp =>
    have hb := fun hb => ih₃ (@busy_of_coinStep _ _ _ _ _ _ _ hp view hb)
    cases hp <;> exact ⟨ih₁, ih₂, hb⟩
  | @report leader v hpc =>
    by_cases hv : v = view
    · subst hv
      have hf := ih₃ (by rw [hpc]; rfl)
      have h0 : h.outs.countP (Out.carries (Msg.isReportOf v)) = 0 := by
        by_contra hne
        exact Bool.false_ne_true (hf.symm.trans (ih₂ hne))
      exact ⟨by simp [h0, newReportMsg], fun _ => by simp, fun hb => by cases hb⟩
    · refine ⟨by simpa [newReportMsg, hv] using ih₁, fun hne => ?_, fun hb => by cases hb⟩
      have := ih₂ (by simpa [newReportMsg, hv] using hne)
      simpa [Function.update_of_ne (Ne.symm hv)] using this
  | commitor _ => rw [countP_emit]; exact ⟨ih₁, ih₂, ih₃⟩
  | _ => exact ⟨ih₁, ih₂, ih₃⟩

/-- **A node that does not keep `coinViewFlags` makes at most one report of a view** either: its
elector names a leader once. -/
theorem report_once_of_shares (hM : Turns E false M) (hl : M.Local G self h) (view : ℤ) :
    h.outs.countP (Out.carries (Msg.isReportOf view)) ≤ 1 ∧
      (h.outs.countP (Out.carries (Msg.isReportOf view)) ≠ 0 →
        E.hightThreshold ≤ (h.st.eletor.aggregator view).elects.length) ∧
      (busy h.st.pc = some view →
        E.hightThreshold ≤ (h.st.eletor.aggregator view).elects.length ∧
          h.outs.countP (Out.carries (Msg.isReportOf view)) = 0) := by
  refine hM.induction (P := fun h => h.outs.countP (Out.carries (Msg.isReportOf view)) ≤ 1 ∧
    (h.outs.countP (Out.carries (Msg.isReportOf view)) ≠ 0 →
      E.hightThreshold ≤ (h.st.eletor.aggregator view).elects.length) ∧
    (busy h.st.pc = some view →
      E.hightThreshold ≤ (h.st.eletor.aggregator view).elects.length ∧
        h.outs.countP (Out.carries (Msg.isReportOf view)) = 0))
    ⟨by simp, by simp, fun h => by cases h⟩ ?_ hl
  intro h x c' os _ ih ht
  obtain ⟨ih₁, ih₂, ih₃⟩ := ih
  rw [List.countP_append]
  cases ht with
  | aside hk _ ho =>
    rw [carries_report_of_aside ho, hk.eletor, hk.pc]
    exact ⟨ih₁, ih₂, ih₃⟩
  | store hk _ => rw [hk.eletor, hk.pc]; exact ⟨ih₁, ih₂, ih₃⟩
  | shares hadd ho =>
    have hle := length_le_of_add hadd view
    rw [carries_report_of_announced ho]
    exact ⟨ih₁, fun hne => (ih₂ hne).trans hle, fun hb => ⟨(ih₃ hb).1.trans hle, (ih₃ hb).2⟩⟩
  | @elected e _ _ _ _ hadd hne _ ho =>
    have hle := length_le_of_add hadd view
    rw [carries_report_of_announced ho]
    refine ⟨ih₁, fun hne => (ih₂ hne).trans hle, fun hb => ?_⟩
    cases hb
    -- the view had too few shares, so that it has not been reported
    obtain ⟨hlt, heq⟩ := length_of_add hadd hne
    refine ⟨heq.ge, ?_⟩
    by_contra hc
    have := ih₂ hc
    omega
  | told hf _ _ => cases hf
  | process hp =>
    have hb := fun hb => ih₃ (@busy_of_coinStep _ _ _ _ _ _ _ hp view hb)
    cases hp <;> exact ⟨ih₁, ih₂, hb⟩
  | @report leader v hpc =>
    by_cases hv : v = view
    · subst hv
      obtain ⟨hle, h0⟩ := ih₃ (by rw [hpc]; rfl)
      exact ⟨by simp [h0, newReportMsg], fun _ => hle, fun hb => by cases hb⟩
    · refine ⟨by simpa [newReportMsg, hv] using ih₁, fun hne => ?_, fun hb => by cases hb⟩
      exact ih₂ (by simpa [newReportMsg, hv] using hne)
  | commitor _ => rw [countP_emit]; exact ⟨ih₁, ih₂, ih₃⟩
  | _ => exact ⟨ih₁, ih₂, ih₃⟩

end Turns

end S2Pac
