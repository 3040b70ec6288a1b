import S2Pac.Agreement
import S2Pac.Core.Rounds

/-!
# Agreement of the lean protocol

The levels that the nodes report decide what the next view starts from, and a level is read once, while
the leader's instance goes on: a node that has reported `LEVEL_0` may still accept the height-2 block,
vote for it and help the leader to a certificate. `lean_logs_fork` is a run in which one node commits
the leader's block on such a certificate after the others have left the view without it.

`Timely` are the runs in which the instance of the leader stands still once it has been reported. In
these runs the logs agree (`lean_agreement`).
-/

set_option linter.unusedSectionVars false

namespace S2Pac

open Lib

variable {D : Type} [DecidableEq D]

namespace Core

variable {E : Env D} {self : NodeID} {leaders : ℤ → NodeID}

/-- The job brings the instance a certificate: the one in a height-2 proposal or in a
`FinVoteMsg`. -/
def accepts (s : SPB D) : SpbJob D → Prop
  | .propose p => p.height = HEIGHT_2 ∧
      p.b.qc.map BlockQC.parentBlockHash = some (s.blockHash HEIGHT_1)
  | .finVote fv => fv.qc.map BlockQC.parentBlockHash = some (s.blockHash HEIGHT_2)
  | _ => False

instance (s : SPB D) (j : SpbJob D) : Decidable (accepts s j) := by
  cases j <;> unfold accepts <;> infer_instance

/-- **The runs in which a report stays true**: once a node has reported a view, its instance of the
leader accepts no certificate; and it does not report `LEVEL_0` before it has the leader's height-1
block. -/
def Timely (E : Env D) (leaders : ℤ → NodeID) :
    Machine.Guard NodeID (Node D (SpbJob D)) (Msg D) Act (Event D) :=
  fun _ h x =>
    match x with
    | .act (.task i) => ∀ t ∈ h.st.tasks[i]?, t.1.2 = leaders t.1.1 →
        h.st.coinViewFlags t.1.1 = true → ¬ accepts (h.st.spbInstances t.1) t.2
    | .act .main => ∀ k ∈ Turns.reporting h.st.pc, k.2 = leaders k.1 →
        (h.st.spbInstances k).qcLEvel.1 = LEVEL_0 →
        (h.st.spbInstances k).blockHash HEIGHT_1 ≠ E.zero
    | _ => True

instance (i : NodeID) (h : NodeHost D (SpbJob D)) (x : Input (Msg D) Act) :
    Decidable (Timely E leaders i h x) :=
  match x with
  | .act (.task _) | .act .main => by unfold Timely; infer_instance
  | .recv _ | .act .boot | .act .callback | .act .commitor | .act (.makeBatch _) => instDecidableTrue

/-! ## Reports stay true -/

/-- What a reported level says of an instance. -/
structure Level (s : SPB D) (level : ℕ) : Prop where
  zero : level = LEVEL_0 → s.blockQcs HEIGHT_1 = none
  one : level = LEVEL_1 → s.blockQcs HEIGHT_2 = none

theorem level_qcLEvel (s : SPB D) : Level s s.qcLEvel.1 := by
  unfold SPB.qcLEvel
  split
  · exact ⟨fun h => absurd h (by simp), fun h => absurd h (by simp)⟩
  · next hboth =>
    split
    · next h₁ =>
      refine ⟨fun h => absurd (show LEVEL_1 = LEVEL_0 from h) (by decide), fun _ => ?_⟩
      simpa using fun h₂ => hboth ⟨h₁, h₂⟩
    · next h₁ => exact ⟨fun _ => by simpa using h₁, fun h => absurd h (by simp)⟩

theorem JobStep.blockQcs_eq {k : Key} {s s' : SPB D} {j : SpbJob D} {js : List (SpbJob D)}
    {os : List (NodeOut D)} (h : JobStep E self k s j s' js os) (hno : ¬ accepts s j) :
    s'.blockQcs = s.blockQcs := by
  cases h with
  | proposeSecond p qc hp hqc heq => exact absurd ⟨hp, by simp [hqc, heq]⟩ hno
  | finAccept fv qc ha hv hqc heq =>
    exact absurd (show fv.qc.map BlockQC.parentBlockHash = _ by simp [hqc, heq]) hno
  | _ => rfl

theorem recorded {G : Machine.Guard NodeID (Node D (SpbJob D)) (Msg D) Act (Event D)}
    {h : NodeHost D (SpbJob D)} (hl : (machine E).Local G self h) (k : Key) (height : ℕ)
    (hh : height ≤ HEIGHT_2) :
    Turns.Recorded E h.received k height ((h.st.spbInstances k).blockHash height) :=
  ((run_sourced (Local.pool_run hl)).2.1 k).recorded hh

/-- **In a timely run what a node has reported stays true.** -/
theorem frozen {h : NodeHost D (SpbJob D)} (hl : (machine E).Local (Timely E leaders) self h)
    (hcoin : ∀ leader view, Elected E leader view → leader = leaders view)
    (hco : ∀ r, Msg.randomCoin r ∈ h.received → r.leader = leaders r.view) {o : NodeOut D}
    (ho : o ∈ h.outs) {r : ReportMsg D} (hr : o.msg = some (.report r)) :
    Level (h.st.spbInstances (r.view, leaders r.view)) r.level := by
  induction hl with
  | start => exact absurd ho List.not_mem_nil
  | @recv h m s os hl hg hs ih =>
    have hco : ∀ r, Msg.randomCoin r ∈ h.received → r.leader = leaders r.view :=
      fun r hr => hco r (List.mem_append_left _ hr)
    rcases List.mem_append.1 ho with ho | ho
    · have hspb : s.spbInstances = h.st.spbInstances := (recv_frame hs).spb
      rw [hspb]
      exact ih hco ho
    · obtain ⟨_, hx, -⟩ := (turns.recv _ _ _ _ hs).of_report ho hr
      cases hx
  | @act h a s os hl hg hs ih =>
    rcases List.mem_append.1 ho with ho | ho
    · have hlev := ih hco ho
      have hflag : h.st.coinViewFlags r.view = true := by
        refine (turns.report_once hl r.view).2.1 ?_
        exact Nat.pos_iff_ne_zero.1 (List.countP_pos_iff.2
          ⟨o, ho, Out.carries_iff.2 ⟨_, hr, by simp⟩⟩)
      cases pool_act (turns.started hl).1 hs with
      | other hf =>
        have hspb : s.spbInstances = h.st.spbInstances := hf.spb
        rw [hspb]
        exact hlev
      | @task i k j s' js ha hi hstep hspb _ =>
        subst ha
        dsimp only at hspb ⊢
        rw [hspb]
        by_cases hk : (r.view, leaders r.view) = k
        · subst hk
          rw [Function.update_self]
          have heq := hstep.blockQcs_eq (hg _ hi rfl hflag)
          exact ⟨fun h => heq ▸ hlev.zero h, fun h => heq ▸ hlev.one h⟩
        · rw [Function.update_of_ne hk]
          exact hlev
    · obtain ⟨leader, -, hpc, -, hq, hspb⟩ := (turns.act _ _ _ _ hs).of_report ho hr
      have hspb : s.spbInstances = h.st.spbInstances := hspb
      have hlev : (h.st.spbInstances (r.view, leader)).qcLEvel.1 = r.level := congrArg Prod.fst hq
      dsimp only
      rw [hspb, ← turns.led hl (fun h hl => recorded hl) hcoin hco hpc, ← hlev]
      exact level_qcLEvel _

/-! ## Timely worlds -/

section World

variable {w : NodeWorld D (SpbJob D)}

theorem told (hw : (machine E).Reach (Timely E leaders) w)
    (hcoin : ∀ leader view, Elected E leader view → leader = leaders view) {i : NodeID}
    (hi : i ∈ (machine E).hosts) {o : NodeOut D} (ho : o ∈ (w.host i).outs) {r : ReportMsg D}
    (hr : o.msg = some (.report r)) : Told (machine E) w leaders r := by
  obtain ⟨h₀, leader, hl₀, hg, hpre, hpc, -, hq⟩ := turns.reported (hw.local i) ho hr
  obtain rfl : leader = leaders r.view := turns.led hl₀ (fun h hl => recorded hl) hcoin
    (fun r hr => turns.coin_received hw hcoin hi (hpre.subset hr)) hpc
  have hheld := (run_sourced (Local.pool_run hl₀)).2.1 (r.view, leaders r.view)
  have hnames : ∀ {height q},
      (h₀.st.spbInstances (r.view, leaders r.view)).blockQcs height = some q →
      q.Names r.view height (leaders r.view) := fun hq =>
    hheld.names (fun m hm => linked_received hw hi m (hpre.subset hm)) hq
  have hg : (h₀.st.spbInstances (r.view, leaders r.view)).qcLEvel.1 = LEVEL_0 →
      (h₀.st.spbInstances (r.view, leaders r.view)).blockHash HEIGHT_1 ≠ E.zero :=
    hg (r.view, leaders r.view) (by rw [hpc]; rfl) rfl
  refine told_of_qcLEvel hq hnames fun hlev => ?_
  rcases hheld.first with ⟨-, hz⟩ | ⟨p, hp, hkey, hph, hpre', -⟩
  · exact absurd hz (hg hlev)
  · have hb := (orderly hw).backed_of_received (E := E) hw hi (hpre.subset hp)
    exact ⟨p.b, hb.leadBlock hkey hph, hpre'⟩

variable (hw : (machine E).Reach (Timely E leaders) w)
  (hcoin : ∀ leader view, Elected E leader view → leader = leaders view)
include hw hcoin

theorem level_of_report {j : NodeID} (hj : j ∈ (machine E).hosts) {view : ℤ} {level : ℕ}
    (h : ∃ o ∈ (w.host j).outs, ∃ r, o.msg = some (.report r) ∧ r.view = view ∧ r.level = level) :
    Level ((w.host j).st.spbInstances (view, leaders view)) level := by
  obtain ⟨o, ho, r, hr, rfl, rfl⟩ := h
  exact frozen (hw.local j) hcoin (fun r hr => turns.coin_received hw hcoin hj hr) ho hr

variable (hn : E.n < 2 * E.hightThreshold)
include hn

theorem not_reported_of_decCert {i : NodeID} (hi : i ∈ (machine E).hosts) {view : ℤ}
    (hd : ((w.host i).st.spbInstances (view, leaders view)).decCert = true) :
    ¬ Reported E (machine E) w LEVEL_0 view := by
  rintro ⟨S', hS', hc', hrep⟩
  simp only [SPB.decCert, Bool.and_eq_true] at hd
  obtain ⟨q, hq⟩ := Option.isSome_iff_exists.1 hd.2
  have hheld := (run_sourced (Local.pool_run (hw.local i))).2.1 (view, leaders view)
  have hnames : q.Names view HEIGHT_2 (leaders view) :=
    hheld.names (linked_received hw hi) hq
  have hsound := instance_qcs_sound hw hi (Or.inr ⟨HEIGHT_2, hq⟩)
  obtain ⟨S, hS, hc, hvote⟩ := hsound.voters hw (orderly hw)
  obtain ⟨j, hj, hj'⟩ := exists_mem_of_quorums hn hS hS' hc hc'
  have hhost : j ∈ (machine E).hosts := List.mem_toFinset.1 (hS hj)
  have hvote := hvote j hj
  rw [hnames.view_eq, hnames.height_eq, hnames.proposer_eq] at hvote
  exact certified_of_vote (Local.pool_run (hw.local j)) (routed hw hhost).1 hvote
    ((level_of_report hw hcoin hhost (hrep j hj')).zero rfl)

/-- A view in which the leader has `SpeedCert()` is not left without its height-2 block. -/
theorem not_reported_of_speedCert {i : NodeID} (hi : i ∈ (machine E).hosts) {view : ℤ}
    (hhash : HashesApart E (machine E) w)
    (hs : ((w.host i).st.spbInstances (view, leaders view)).speedCert = true) :
    ¬ Reported E (machine E) w LEVEL_0 view ∧ ¬ Reported E (machine E) w LEVEL_1 view := by
  have hx := Local.pool_run (hw.local i)
  have hcount : E.hightThreshold ≤
      (w.host i).received.countP (Msg.isSpeedVote (view, leaders view)) :=
    (le_speedVoteNums hx hs).trans (speedVoteNums_le hx)
  have hname : ∀ j ∈ (machine E).hosts, ∀ o ∈ (w.host j).outs, ∀ m, o.msg = some m →
      Msg.isSpeedVote (view, leaders view) m = true → m.author = j := by
    intro j hj o ho m hm hP
    cases m with
    | speedVote sv => exact ((orderly hw).signed j hj o ho _ hm).1
    | _ => simp at hP
  obtain ⟨S, hS, hc, hvote⟩ := hw.exists_authors hi hname
    (fun j hj => speedVote_le_one hw (view, leaders view) hj) hcount
  -- a node that has sent a speed vote holds both certificates
  have hcert : ∀ j ∈ S,
      ((w.host j).st.spbInstances (view, leaders view)).blockQcs HEIGHT_2 ≠ none ∧
      ((w.host j).st.spbInstances (view, leaders view)).blockQcs HEIGHT_1 ≠ none := by
    intro j hj
    have hhost : j ∈ (machine E).hosts := List.mem_toFinset.1 (hS hj)
    obtain ⟨m, hm, hP, hjm⟩ := hvote j hj
    obtain ⟨j', hj', o, ho, hom⟩ := hw.sender hi hm
    have hmsg := Out.msg_of_msgTo hom
    obtain rfl : j' = j := (hname j' hj' o ho m hmsg hP).symm.trans hjm
    have hxj := Local.pool_run (hw.local j')
    have h₂ := certified_of_speedVote hxj (routed hw hhost).1
      ⟨o, ho, Out.carries_iff.2 ⟨m, hmsg, hP⟩⟩
    refine ⟨h₂, ?_⟩
    obtain ⟨q, hq⟩ := Option.ne_none_iff_exists'.1 h₂
    rcases ((run_sourced hxj).2.1 (view, leaders view)).fin q hq with ⟨-, h₁ | hz⟩
    · exact h₁
    · obtain ⟨b, hb, -⟩ := instance_qcs_sound hw hhost (Or.inr ⟨HEIGHT_2, hq⟩)
      exact absurd (hb.hash.trans hz) (hhash b ⟨_, hb.host, hb.proposed⟩).1
  constructor
  · rintro ⟨S', hS', hc', hrep⟩
    obtain ⟨j, hj, hj'⟩ := exists_mem_of_quorums hn hS hS' hc hc'
    have hhost : j ∈ (machine E).hosts := List.mem_toFinset.1 (hS hj)
    exact (hcert j hj).2 ((level_of_report hw hcoin hhost (hrep j hj')).zero rfl)
  · rintro ⟨S', hS', hc', hrep⟩
    obtain ⟨j, hj, hj'⟩ := exists_mem_of_quorums hn hS hS' hc hc'
    have hhost : j ∈ (machine E).hosts := List.mem_toFinset.1 (hS hj)
    exact (hcert j hj).1 ((level_of_report hw hcoin hhost (hrep j hj')).one rfl)

theorem chained (hhash : HashesApart E (machine E) w) :
    Chained E (machine E) w leaders where
  orderly := orderly hw
  sound _ hi _ ho _ hm _ hq := qcs_sound hw hi ho hm hq
  linked _ hi _ ho _ hm := linked_step hw hi (linked_received hw hi) ho hm
  hashes := hhash
  told _ hi _ ho _ hr := told hw hcoin hi ho hr
  report_once i _ view := (turns.report_once (hw.local i) view).1
  decided _ hi _ hd := not_reported_of_decCert hw hcoin hn hi hd
  speeded _ hi _ hs := not_reported_of_speedCert hw hcoin hn hi hhash hs

end World

end Core

/-- **Agreement of the lean protocol in timely runs.** -/
theorem lean_agreement {E : Env D} (hn : E.n < 2 * E.hightThreshold) {leaders : ℤ → NodeID}
    (hcoin : ∀ leader view, Elected E leader view → leader = leaders view)
    {w : NodeWorld D (SpbJob D)} (hw : (Core.machine E).Reach (Core.Timely E leaders) w)
    (hhash : HashesApart E (Core.machine E) w) (i j : NodeID) (hi : i ∈ E.members)
    (hj : j ∈ E.members) :
    emitted (w.host i).outs <+: emitted (w.host j).outs ∨
      emitted (w.host j).outs <+: emitted (w.host i).outs :=
  (Core.chained hw hcoin hn hhash).prefix_compatible Core.turns hw hcoin
    (fun _ _ _ hl => Core.recorded hl) hi hj

/-! ## Runs of four nodes -/

namespace LeanRun

/-- The proposal of `p` goes to nodes 0, 1 and 2, and their votes to `p`. -/
def phase (view : ℤ) (height : ℕ) (p : NodeID) : List (NodeOrder ℕ) :=
  ([0, 1, 2].flatMap fun i =>
    .deliver i (Msg.isPropose (view, p) height) :: again i (.task 0) 2) ++
  List.replicate 3 (.deliver p (Msg.isVote (view, p) height)) ++ again p (.task 0) 4

/-- Nodes 0, 1 and 2 go through a view, and node 0 gets the shares of its coin. -/
def round (view : ℤ) : List (NodeOrder ℕ) :=
  [0, 1, 2].flatMap (phase view HEIGHT_1) ++ [0, 1, 2].flatMap (phase view HEIGHT_2) ++
  ([0, 1, 2].flatMap fun i => [0, 1, 2].flatMap fun p =>
    .deliver i (Msg.isFinVote (view, p)) :: again i (.task 0) 1) ++
  List.replicate 3 (.deliver 0 (Msg.isElect view))

/-- Node `i` is told the leader, and its main loop takes `n` steps. -/
def told (view : ℤ) (n : ℕ) (i : NodeID) : List (NodeOrder ℕ) :=
  .deliver i (Msg.isCoin view) :: again i .main n

/-- Node 0 leads view 0, and nodes 0 and 1 commit its height-1 block. -/
def timely : List (NodeOrder ℕ) :=
  bootFour ++ round 0 ++ again 0 .main 5 ++ told 0 5 1 ++ again 0 .commitor 3 ++ again 1 .commitor 3

/-- Node 3 leads view 0. Its height-2 block comes to nodes 0, 1 and 2 when they have reported
`LEVEL_0`; they vote for it all the same, and node 3 commits on the certificate. -/
def late : List (NodeOrder ℕ) :=
  bootFour ++ phase 0 HEIGHT_1 3 ++ round 0 ++ again 0 .main 3 ++ [1, 2].flatMap (told 0 3) ++
  phase 0 HEIGHT_2 3 ++
  [.deliver 3 (Msg.isPropose (0, 3) HEIGHT_1), .deliver 3 (Msg.isPropose (0, 3) HEIGHT_2)] ++
  again 3 (.task 0) 4 ++ [.deliver 3 (Msg.isFinVote (0, 3))] ++ again 3 (.task 0) 1 ++
  told 0 5 3 ++ again 3 .commitor 3

/-- After `late` nodes 0, 1 and 2 go on to view 1, where node 0 leads and commits its own block. -/
def fork : List (NodeOrder ℕ) :=
  late ++ [0, 1, 2].flatMap (fun i => List.replicate 3 (.deliver i (Msg.isReportOf 0))) ++
  round 1 ++ again 0 .main 5 ++ again 0 .commitor 3

/-- The world after `timely`. -/
def timelyWorld : NodeWorld ℕ (SpbJob ℕ) :=
  (Core.machine (Env.plain 4 fun _ => 0)).play
    (Core.Timely (Env.plain 4 fun _ => 0) (plainLeader 4 fun _ => 0))
    (Core.machine (Env.plain 4 fun _ => 0)).world timely

end LeanRun

theorem lean_agreement_four :
    (emitted (LeanRun.timelyWorld.host 0).outs).map Block.author = [0] ∧
      (emitted (LeanRun.timelyWorld.host 0).outs <+: emitted (LeanRun.timelyWorld.host 1).outs ∨
        emitted (LeanRun.timelyWorld.host 1).outs <+: emitted (LeanRun.timelyWorld.host 0).outs) := by
  have hw : (Core.machine (Env.plain 4 fun _ => 0)).Reach
      (Core.Timely (Env.plain 4 fun _ => 0) (plainLeader 4 fun _ => 0)) LeanRun.timelyWorld :=
    Machine.play_sound _ LeanRun.timely
  have hspec : HashesApart (Env.plain 4 fun _ => 0) (Core.machine (Env.plain 4 fun _ => 0))
        LeanRun.timelyWorld ∧
      (emitted (LeanRun.timelyWorld.host 0).outs).map Block.author = [0] := by
    decide +kernel
  refine ⟨hspec.2, ?_⟩
  exact lean_agreement (by decide) elected_plain hw hspec.1 0 1 (by decide)
    (by decide)

/-- **The logs of the lean protocol can differ.** All four nodes follow the code. -/
theorem lean_logs_fork : ∃ (E : Env ℕ) (leaders : ℤ → NodeID) (w : NodeWorld ℕ (SpbJob ℕ)),
    1 ≤ E.n ∧ (∀ leader view, Elected E leader view → leader = leaders view) ∧
    (Core.machine E).Reach Machine.anyInput w ∧ HashesApart E (Core.machine E) w ∧
    ∃ i ∈ E.members, ∃ j ∈ E.members,
      ¬ (emitted (w.host i).outs <+: emitted (w.host j).outs ∨
        emitted (w.host j).outs <+: emitted (w.host i).outs) := by
  refine ⟨Env.plain 4 threeThenZero, plainLeader 4 threeThenZero,
    (Core.machine _).play Machine.anyInput (Core.machine _).world LeanRun.fork, by decide, elected_plain,
    Machine.play_sound _ _, ?_⟩
  decide +kernel

end S2Pac
