import S2Pac.Agreement
import S2Pac.BigCore.Rounds

/-!
# Agreement of the big protocol

A node votes for the height-2 block of the leader when it has the hash of the height-1 block, before it
has made a certificate of that; and it makes its certificates whenever the votes come. So a node may
report `LEVEL_0` and have voted for the leader's height-2 block. `big_logs_fork` is a run in which the
leader alone gets the votes of its instance, and commits, while the others leave the view without it.

`Timely` are the runs in which nobody who reports `LEVEL_0` votes for the leader's height-2 block. In
these runs the logs agree (`big_agreement`). Speed votes are handed to the instance of their author, so
that `SpeedCert()` needs a committee of one.
-/

set_option linter.unusedSectionVars false

namespace S2Pac

open Lib BigSPB

variable {D : Type} [DecidableEq D]

namespace BigCore

variable {E : Env D} {self : NodeID} {leaders : ℤ → NodeID}

/-- The job accepts a height-2 proposal. -/
def accepts (s : SPB D) : BigJob D → Prop
  | .propose p => p.height = HEIGHT_2 ∧ (bigRules : Rules D).parentOk s p.b = some true
  | _ => False

instance (s : SPB D) (j : BigJob D) : Decidable (accepts s j) := by
  cases j <;> unfold accepts <;> infer_instance

/-- **The runs in which `LEVEL_0` stays true**: a node reports `LEVEL_0` when it has the leader's
height-1 block and has not accepted the height-2 block, and does not accept that later. -/
def Timely (E : Env D) (leaders : ℤ → NodeID) :
    Machine.Guard NodeID (BigNode D) (Msg D) Act (Event D) :=
  fun _ h x =>
    match x with
    | .act (.task i) => ∀ t ∈ h.st.tasks[i]?, t.1.2 = leaders t.1.1 →
        h.outs.any (Out.carries (Msg.isReport t.1.1 LEVEL_0)) = true →
        ¬ accepts (h.st.spbInstances t.1) t.2
    | .act .main => ∀ k ∈ Turns.reporting h.st.pc, k.2 = leaders k.1 →
        (h.st.spbInstances k).qcLEvel.1 = LEVEL_0 →
        (h.st.spbInstances k).blockHash HEIGHT_1 ≠ E.zero ∧
          (h.st.spbInstances k).blockHash HEIGHT_2 = E.zero
    | _ => True

instance (i : NodeID) (h : NodeHost D (BigJob D)) (x : Input (Msg D) Act) :
    Decidable (Timely E leaders i h x) :=
  match x with
  | .act (.task _) | .act .main => by unfold Timely; infer_instance
  | .recv _ | .act .boot | .act .callback | .act .commitor | .act (.makeBatch _) => instDecidableTrue

/-! ## Reports stay true -/

theorem blockHash_of_not_accepts {k : Key} {s s' : SPB D} {j : BigJob D} {js : List (BigJob D)}
    {os : List (NodeOut D)} (h : JobStep E self bigRules k s j s' js os) (hno : ¬ accepts s j) :
    s'.blockHash HEIGHT_2 = s.blockHash HEIGHT_2 := by
  cases h with
  | proposeFirst p hp => simp
  | proposeSecond p hp hok => exact absurd ⟨hp, hok⟩ hno
  | _ => rfl

theorem recorded {G : Machine.Guard NodeID (BigNode D) (Msg D) Act (Event D)}
    {h : NodeHost D (BigJob D)} (hl : (machine E).Local G self h) (k : Key) (height : ℕ)
    (hh : height ≤ HEIGHT_2) :
    Turns.Recorded E h.received k height ((h.st.spbInstances k).blockHash height) :=
  (runs.held hl k).recorded hh

/-- **In a timely run a node that has reported `LEVEL_0` has not accepted the leader's height-2
block.** -/
theorem frozen {h : NodeHost D (BigJob D)} (hl : (machine E).Local (Timely E leaders) self h)
    (hcoin : ∀ leader view, Elected E leader view → leader = leaders view)
    (hco : ∀ r, Msg.randomCoin r ∈ h.received → r.leader = leaders r.view) {o : NodeOut D}
    (ho : o ∈ h.outs) {r : ReportMsg D} (hr : o.msg = some (.report r)) (hlev : r.level = LEVEL_0) :
    (h.st.spbInstances (r.view, leaders r.view)).blockHash HEIGHT_2 = E.zero := by
  induction hl with
  | start => exact absurd ho List.not_mem_nil
  | @recv h m s os hl hg hs ih =>
    have hco : ∀ r, Msg.randomCoin r ∈ h.received → r.leader = leaders r.view :=
      fun r hr => hco r (List.mem_append_left _ hr)
    rcases List.mem_append.1 ho with ho | ho
    · have hspb : s.spbInstances = h.st.spbInstances := (recv_frame hs).spb
      rw [hspb]
      exact ih hco ho
    · obtain ⟨_, hx, -⟩ := (turns.recv _ _ _ _ hs).of_report ho hr
      cases hx
  | @act h a s os hl hg hs ih =>
    rcases List.mem_append.1 ho with ho | ho
    · have hz := ih hco ho
      cases pool_act (turns.started hl).1 hs with
      | other hf =>
        have hspb : s.spbInstances = h.st.spbInstances := hf.spb
        rw [hspb]
        exact hz
      | @task i k j s' js ha hi hstep hspb _ =>
        subst ha
        dsimp only at hspb ⊢
        rw [hspb]
        by_cases hk : (r.view, leaders r.view) = k
        · subst hk
          rw [Function.update_self]
          have hrep : h.outs.any (Out.carries (Msg.isReport r.view LEVEL_0)) = true :=
            List.any_eq_true.2 ⟨o, ho, Out.carries_iff.2 ⟨_, hr, by simp [hlev]⟩⟩
          exact (blockHash_of_not_accepts hstep (hg _ hi rfl hrep)).trans hz
        · rw [Function.update_of_ne hk]
          exact hz
    · obtain ⟨leader, hx, hpc, -, hq, hspb⟩ := (turns.act _ _ _ _ hs).of_report ho hr
      cases hx
      have hspb : s.spbInstances = h.st.spbInstances := hspb
      obtain rfl : leader = leaders r.view := turns.led hl (fun h hl => recorded hl) hcoin hco hpc
      have hlev' : (h.st.spbInstances (r.view, leaders r.view)).qcLEvel.1 = LEVEL_0 :=
        (congrArg Prod.fst hq).trans hlev
      have hg := hg (r.view, leaders r.view) (by rw [hpc]; rfl) rfl hlev'
      dsimp only
      rw [hspb]
      exact hg.2

/-! ## Timely worlds -/

section World

variable {w : NodeWorld D (BigJob D)} (hw : (machine E).Reach (Timely E leaders) w)
include hw

theorem told (hcoin : ∀ leader view, Elected E leader view → leader = leaders view) {i : NodeID}
    (hi : i ∈ (machine E).hosts) {o : NodeOut D} (ho : o ∈ (w.host i).outs) {r : ReportMsg D}
    (hr : o.msg = some (.report r)) : Told (machine E) w leaders r := by
  obtain ⟨h₀, leader, hl₀, hg, hpre, hpc, -, hq⟩ := turns.reported (hw.local i) ho hr
  obtain rfl : leader = leaders r.view := turns.led hl₀ (fun h hl => recorded hl) hcoin
    (fun r hr => turns.coin_received hw hcoin hi (hpre.subset hr)) hpc
  refine told_of_qcLEvel hq (fun hq => runs.names hl₀ hq) fun hlev => ?_
  have hg := hg (r.view, leaders r.view) (by rw [hpc]; rfl) rfl hlev
  rcases (runs.held hl₀ (r.view, leaders r.view)).first with ⟨-, hz⟩ | ⟨p, hp, hkey, hph, hpre', -⟩
  · exact absurd hz hg.1
  · have hb := (orderly hw).backed_of_received (E := E) hw hi (hpre.subset hp)
    exact ⟨p.b, hb.leadBlock hkey hph, hpre'⟩

/-- In a committee of more than one node `SpeedCert()` does not hold. -/
theorem not_speedCert (hH : 2 ≤ E.hightThreshold) {i : NodeID} (hi : i ∈ (machine E).hosts)
    (k : Key) : ((w.host i).st.spbInstances k).speedCert ≠ true := by
  intro hs
  obtain ⟨S, hS, hcard, hvotes⟩ := runs.speedVoters (orderly hw) hw hi hs
  have hsub : S ⊆ {k.2} := by
    intro j hj
    obtain ⟨o, ho, hc⟩ := hvotes j hj
    obtain ⟨m, hm, hP⟩ := Out.carries_iff.1 hc
    cases m with
    | speedVote sv =>
      have ha : sv.author = j := (signed (hw.local j) ho hm).1
      have hk : (sv.view, sv.author) = k := (of_decide_eq_true hP).2
      exact Finset.mem_singleton.2 (ha.symm.trans (congrArg Prod.snd hk))
    | _ => simp at hP
  have := Finset.card_le_card hsub
  rw [Finset.card_singleton] at this
  omega

/-- A view in which a node holds both certificates of the leader is not left without its block. -/
theorem not_reported_of_decCert (hn : E.n < 2 * E.hightThreshold)
    (hcoin : ∀ leader view, Elected E leader view → leader = leaders view)
    (hhash : HashesApart E (machine E) w) {i : NodeID} (hi : i ∈ (machine E).hosts) {view : ℤ}
    (hd : ((w.host i).st.spbInstances (view, leaders view)).decCert = true) :
    ¬ Reported E (machine E) w LEVEL_0 view := by
  rintro ⟨S', hS', hc', hrep⟩
  simp only [SPB.decCert, Bool.and_eq_true] at hd
  obtain ⟨q, hq⟩ := Option.isSome_iff_exists.1 hd.2
  have hnames : q.Names view HEIGHT_2 (leaders view) := runs.names (hw.local i) hq
  obtain ⟨S, hS, hc, hvote⟩ := (instance_qcs_sound hw hi (Or.inr ⟨_, hq⟩)).voters hw (orderly hw)
  obtain ⟨j, hj, hj'⟩ := exists_mem_of_quorums hn hS hS' hc hc'
  have hhost : j ∈ (machine E).hosts := List.mem_toFinset.1 (hS hj)
  have hvote := hvote j hj
  rw [hnames.view_eq, hnames.height_eq, hnames.proposer_eq] at hvote
  have hz : ∀ p, Msg.propose p ∈ (w.host j).received → p.b.hash E ≠ E.zero := fun p hp =>
    have hb := (orderly hw).backed_of_received (E := E) hw hhost hp
    (hhash p.b ⟨_, hb.host, hb.proposed⟩).1
  obtain ⟨o, ho, r, hr, rfl, hlev⟩ := hrep j hj'
  exact recorded_of_vote (runs.pool (hw.local j)) ((orderly hw).proper_of_received hw hhost) hz hvote
    (frozen (hw.local j) hcoin (fun r hr => turns.coin_received hw hcoin hhost hr) ho hr hlev)

theorem chained (hn : E.n < 2 * E.hightThreshold) (hH : 2 ≤ E.hightThreshold)
    (hcoin : ∀ leader view, Elected E leader view → leader = leaders view)
    (hhash : HashesApart E (machine E) w) : Chained E (machine E) w leaders where
  orderly := orderly hw
  sound _ hi _ ho _ hm _ hq := qcs_sound hw hi ho hm hq
  linked _ hi _ ho _ hm := linked_step hw (linked_received hw hi) ho hm
  hashes := hhash
  told _ hi _ ho _ hr := told hw hcoin hi ho hr
  report_once i _ view := (turns.report_once_of_shares (hw.local i) view).1
  decided _ hi _ hd := not_reported_of_decCert hw hn hcoin hhash hi hd
  speeded _ hi _ hs := absurd hs (not_speedCert hw hH hi _)

end World

end BigCore

/-- **Agreement of the big protocol in timely runs.** -/
theorem big_agreement {E : Env D} (hn : E.n < 2 * E.hightThreshold) {leaders : ℤ → NodeID}
    (hcoin : ∀ leader view, Elected E leader view → leader = leaders view)
    {w : NodeWorld D (BigJob D)} (hw : (BigCore.machine E).Reach (BigCore.Timely E leaders) w)
    (hhash : HashesApart E (BigCore.machine E) w) (i j : NodeID) (hi : i ∈ E.members)
    (hj : j ∈ E.members) :
    emitted (w.host i).outs <+: emitted (w.host j).outs ∨
      emitted (w.host j).outs <+: emitted (w.host i).outs := by
  by_cases hH : 2 ≤ E.hightThreshold
  · exact (BigCore.chained hw hn hH hcoin hhash).prefix_compatible BigCore.turns hw hcoin
      (fun _ _ _ hl => BigCore.recorded hl) hi hj
  · -- a committee of one node
    have hi := E.mem_members.1 hi
    have hj := E.mem_members.1 hj
    obtain rfl : i = j := Int.le_antisymm (by omega) (by omega)
    exact Or.inl (List.prefix_refl _)

/-! ## Runs of four nodes -/

namespace BigRun

/-- The proposal of `p` goes to the nodes `ns`. -/
def propose (view : ℤ) (height : ℕ) (ns : List NodeID) (p : NodeID) : List (NodeOrder ℕ) :=
  ns.flatMap fun i => .deliver i (Msg.isPropose (view, p) height) :: again i (.task 0) 4

/-- Three votes for the block of `p` go to the nodes `ns`. -/
def votes (view : ℤ) (height : ℕ) (ns : List NodeID) (p : NodeID) : List (NodeOrder ℕ) :=
  ns.flatMap fun i =>
    List.replicate 3 (.deliver i (Msg.isVote (view, p) height)) ++ again i (.task 0) 9

/-- Nodes 0, 1 and 2 go through a view up to their shares of the coin. -/
def round (view : ℤ) : List (NodeOrder ℕ) :=
  ([0, 1, 2].flatMap fun p => propose view HEIGHT_1 [0, 1, 2] p ++ votes view HEIGHT_1 [p] p) ++
  ([0, 1, 2].flatMap fun p =>
    propose view HEIGHT_2 [0, 1, 2] p ++ votes view HEIGHT_2 [0, 1, 2] p) ++
  ([0, 1, 2].flatMap fun i => ([0, 1, 2].map fun p =>
    .deliver i fun m => Msg.isSpeedVote (view, p) m && decide (m.author = i)) ++
    again i (.task 0) 4)

/-- Node `i` gets the shares of the coin and goes on to its report. -/
def elect (view : ℤ) (i : NodeID) : List (NodeOrder ℕ) :=
  List.replicate 3 (.deliver i (Msg.isElect view)) ++ again i .main 5

/-- Node 0 leads view 0, and nodes 0 and 1 commit its height-1 block. -/
def timely : List (NodeOrder ℕ) :=
  bootFour ++ round 0 ++ votes 0 HEIGHT_1 [1] 0 ++ elect 0 0 ++ elect 0 1 ++ again 0 .commitor 3 ++
  again 1 .commitor 3

/-- Node 3 leads view 0. Everybody gets its blocks and votes for them, but only node 3 gets the votes:
it commits, and the others report `LEVEL_0`. They go on to view 1, where node 0 leads and commits its
own block. -/
def fork : List (NodeOrder ℕ) :=
  bootFour ++ propose 0 HEIGHT_1 [0, 1, 2, 3] 3 ++ votes 0 HEIGHT_1 [3] 3 ++
  propose 0 HEIGHT_2 [0, 1, 2, 3] 3 ++ votes 0 HEIGHT_2 [3] 3 ++ round 0 ++
  [0, 1, 2, 3].flatMap (elect 0) ++ again 3 .commitor 3 ++
  [0, 1, 2].flatMap (fun i => List.replicate 3 (.deliver i (Msg.isReport 0 LEVEL_0))) ++
  round 1 ++ elect 1 0 ++ again 0 .commitor 3

/-- The world after `timely`. -/
def timelyWorld : NodeWorld ℕ (BigJob ℕ) :=
  (BigCore.machine (Env.plain 4 fun _ => 0)).play
    (BigCore.Timely (Env.plain 4 fun _ => 0) (plainLeader 4 fun _ => 0))
    (BigCore.machine (Env.plain 4 fun _ => 0)).world timely

end BigRun

theorem big_agreement_four :
    (emitted (BigRun.timelyWorld.host 0).outs).map Block.author = [0] ∧
      (emitted (BigRun.timelyWorld.host 0).outs <+: emitted (BigRun.timelyWorld.host 1).outs ∨
        emitted (BigRun.timelyWorld.host 1).outs <+: emitted (BigRun.timelyWorld.host 0).outs) := by
  have hw : (BigCore.machine (Env.plain 4 fun _ => 0)).Reach
      (BigCore.Timely (Env.plain 4 fun _ => 0) (plainLeader 4 fun _ => 0)) BigRun.timelyWorld :=
    Machine.play_sound _ BigRun.timely
  have hspec : HashesApart (Env.plain 4 fun _ => 0) (BigCore.machine (Env.plain 4 fun _ => 0))
        BigRun.timelyWorld ∧
      (emitted (BigRun.timelyWorld.host 0).outs).map Block.author = [0] := by
    decide +kernel
  refine ⟨hspec.2, ?_⟩
  exact big_agreement (by decide) elected_plain hw hspec.1 0 1 (by decide)
    (by decide)

/-- **The logs of the big protocol can differ.** All four nodes follow the code. -/
theorem big_logs_fork : ∃ (E : Env ℕ) (leaders : ℤ → NodeID) (w : NodeWorld ℕ (BigJob ℕ)),
    1 ≤ E.n ∧ (∀ leader view, Elected E leader view → leader = leaders view) ∧
    (BigCore.machine E).Reach Machine.anyInput w ∧ HashesApart E (BigCore.machine E) w ∧
    ∃ i ∈ E.members, ∃ j ∈ E.members,
      ¬ (emitted (w.host i).outs <+: emitted (w.host j).outs ∨
        emitted (w.host j).outs <+: emitted (w.host i).outs) := by
  refine ⟨Env.plain 4 threeThenZero, plainLeader 4 threeThenZero,
    (BigCore.machine _).play Machine.anyInput (BigCore.machine _).world BigRun.fork, by decide,
    elected_plain, Machine.play_sound _ _, ?_⟩
  decide +kernel

end S2Pac
