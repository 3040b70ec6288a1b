import S2Pac.SpeedVotes

/-!
# When a node of the big protocols opens an election

A node counts the speed votes of a view by their authors, and broadcasts its `ElectMsg` when it has counted
`HightThreshold()` of its own. The test is made on every speed vote of the view, whoever it is by, and it
is an equality: from the node's own speed vote that reaches the threshold until the next one, every speed
vote of another node opens the election again. Where none of those is handled in between, there is one
`ElectMsg` for a view (`one_elect_per_view`).
-/

set_option linter.unusedSectionVars false

namespace S2Pac

open Lib

variable {D : Type} [DecidableEq D]

/-- What a step of node `me` does to the speed votes it has counted: an accepted one is counted, which
may put out an `ElectMsg`, and no other step does either. -/
inductive Ballot (E : Env D) (me : NodeID) (c : BigNode D) :
    Input (Msg D) Act → BigNode D → List (NodeOut D) → Prop
  | counted {sv : SpeedVoteMsg D} {c' : BigNode D} : sv.verify E = some true →
      c'.speedVoteNums = (BigCore.countSpeedVote E me c sv).1.speedVoteNums →
      Ballot E me c (.recv (.speedVote sv)) c' (BigCore.countSpeedVote E me c sv).2
  | other {x : Input (Msg D) Act} {c' : BigNode D} {os : List (NodeOut D)} :
      c'.speedVoteNums = c.speedVoteNums → (∀ o ∈ os, ∀ e, o.msg ≠ some (.elect e)) →
      Ballot E me c x c' os

/-- The machines whose steps are of this kind. -/
structure Ballots (E : Env D) (M : NodeMachine D (BigJob D)) : Prop where
  init : ∀ i, M.init i = Node.new E
  recv : ∀ i c m r, M.recv i c m = some r → Ballot E i c (.recv m) r.1 r.2
  act : ∀ i c a r, M.act i c a = some r → Ballot E i c (.act a) r.1 r.2

theorem BigSPB.JobStep.shareless {E : Env D} {self : NodeID} {V : Rules D} {k : Key} {s s' : SPB D}
    {j : BigJob D} {js : List (BigJob D)} {os : List (NodeOut D)}
    (h : JobStep E self V k s j s' js os) : ∀ o ∈ os, Shareless o := by
  cases h with
  | replay p | quorumSecond v hv | newPropose v batch =>
    exact shareless_singleton (by simp [Shareless, Out.msg])
  | _ => exact shareless_nil

section Ballot

variable {E : Env D} {self : NodeID} {V : Variant} {rules : BigSPB.Rules D} {has : BigJob D → Prop}
  {c c' : BigNode D} {os : List (NodeOut D)}

theorem Handling.ballot {m : Msg D} (h : Handling E self V (BigSPB.goroutines E rules has) c m c' os)
    (hV : V ≠ .lean) : Ballot E self c (.recv m) c' os := by
  cases h with
  | counted _ hp => exact .counted (Msg.passes_verify hp) rfl
  | stale hlean _ | finVote hlean _ | speedVote hlean _ | tossed hlean _ _ _ | told hlean _ =>
    exact absurd hlean hV
  | elected _ _ _ => exact .other rfl (V.announce_shareless _ _ _ _)
  | advance _ _ _ _ => exact .other rfl (shareless_singleton (by simp [Shareless, Out.msg]))
  | _ => exact .other rfl shareless_nil

theorem Branches.ballots {M : NodeMachine D (BigJob D)}
    (hM : Branches E V (BigSPB.goroutines E rules has) M) (hV : V ≠ .lean) : Ballots E M where
  init := hM.init
  recv _ _ _ _ h := (hM.recv _ _ _ _ h).2.ballot hV
  act _ _ _ _ h := by
    obtain ⟨-, hnums, hos⟩ := (hM.act _ _ _ _ h).uncounted fun _ _ _ _ _ _ hs => hs.shareless
    exact .other hnums hos

end Ballot

theorem BigCore.ballots (E : Env D) : Ballots E (BigCore.machine E) :=
  (BigCore.branches E).ballots (by simp)

theorem DAGBigCore.ballots (E : Env D) : Ballots E (DAGBigCore.machine E) :=
  (DAGBigCore.branches E).ballots (by simp)

/-! ## One election -/

/-- No speed vote of another node for the view is handled while the node has counted `HightThreshold()`
of its own. -/
def Undisturbed (E : Env D) (view : ℤ) : Machine.Guard NodeID (BigNode D) (Msg D) Act (Event D) :=
  fun i h x =>
    match x with
    | .recv (.speedVote sv) => sv.view = view → sv.author ≠ i → sv.verify E = some true →
      h.st.speedVoteNums view i ≠ E.hightThreshold
    | _ => True

instance (E : Env D) (view : ℤ) (i : NodeID) (h : NodeHost D (BigJob D))
    (x : Input (Msg D) Act) : Decidable (Undisturbed E view i h x) := by
  unfold Undisturbed
  split <;> infer_instance

section Local

variable {E : Env D} {M : NodeMachine D (BigJob D)} {self : NodeID} {h : NodeHost D (BigJob D)}
  {view : ℤ}

theorem speedVoteNums_counted (c : BigNode D) (sv : SpeedVoteMsg D) :
    (BigCore.countSpeedVote E self c sv).1.speedVoteNums view self =
      c.speedVoteNums view self + if sv.view = view ∧ sv.author = self then 1 else 0 := by
  unfold BigCore.countSpeedVote
  dsimp only
  by_cases hv : sv.view = view
  · subst hv
    by_cases ha : sv.author = self
    · subst ha
      simp
    · simp [ha, Function.update_of_ne (Ne.symm ha)]
  · simp [hv, Function.update_of_ne (Ne.symm hv)]

/-- A speed vote opens an election of the view if it is one of the view and the node has then counted
`HightThreshold()` of its own. -/
theorem countP_elect_counted (c : BigNode D) (sv : SpeedVoteMsg D) :
    (BigCore.countSpeedVote E self c sv).2.countP (Out.carries (Msg.isElect view)) =
      if sv.view = view ∧ (BigCore.countSpeedVote E self c sv).1.speedVoteNums view self =
        E.hightThreshold then 1 else 0 := by
  unfold BigCore.countSpeedVote
  dsimp only
  by_cases hv : sv.view = view
  · subst hv
    simp only [Function.update_self, true_and]
    split
    · simp [newElectMsg]
    · rfl
  · simp only [hv, false_and, if_false]
    split
    · simp [newElectMsg, hv]
    · rfl

/-- **At most one election**, and none before the node has counted `HightThreshold()` of its own. -/
theorem Ballots.elect_le (hM : Ballots E M) (hl : M.Local (Undisturbed E view) self h) :
    h.outs.countP (Out.carries (Msg.isElect view)) ≤
      if E.hightThreshold ≤ h.st.speedVoteNums view self then 1 else 0 := by
  have hstep (h : NodeHost D (BigJob D)) (x : Input (Msg D) Act) (c' : BigNode D)
      (os : List (NodeOut D)) (hg : Undisturbed E view self h x) (hb : Ballot E self h.st x c' os)
      (ih : h.outs.countP (Out.carries (Msg.isElect view)) ≤
        if E.hightThreshold ≤ h.st.speedVoteNums view self then 1 else 0) :
      (h.outs ++ os).countP (Out.carries (Msg.isElect view)) ≤
        if E.hightThreshold ≤ c'.speedVoteNums view self then 1 else 0 := by
    rw [List.countP_append]
    cases hb with
    | other hsame hos =>
      have hzero : os.countP (Out.carries (Msg.isElect view)) = 0 := by
        refine List.countP_eq_zero.2 fun o ho hc => ?_
        obtain ⟨m, hm, hP⟩ := Out.carries_iff.1 hc
        cases m with
        | elect e => exact hos o ho e hm
        | _ => simp at hP
      rw [hzero, hsame]
      exact ih
    | @counted sv _ hv hnums =>
      rw [hnums, countP_elect_counted, speedVoteNums_counted]
      by_cases hview : sv.view = view
      · by_cases hauthor : sv.author = self
        · -- the node's own speed vote: the threshold is reached once
          have hcross := crossing E.hightThreshold (h.st.speedVoteNums view self)
          simp only [hview, hauthor, and_self, if_true, true_and]
          omega
        · have hne : h.st.speedVoteNums view self ≠ E.hightThreshold := hg hview hauthor hv
          simpa [hview, hauthor, hne] using ih
      · simpa [hview] using ih
  induction hl with
  | start => exact Nat.zero_le _
  | recv _ hg hs ih => exact hstep _ _ _ _ hg (hM.recv _ _ _ _ hs) ih
  | act _ hg hs ih => exact hstep _ _ _ _ hg (hM.act _ _ _ _ hs) ih

end Local

/-- **One `ElectMsg` for a view**, in the runs of the two big protocols where no node handles a speed vote
of another node for the view while it has counted exactly `HightThreshold()` of its own. -/
theorem one_elect_per_view (E : Env D) (view : ℤ) :
    (∀ w : NodeWorld D (BigJob D), (BigCore.machine E).Reach (Undisturbed E view) w →
      ∀ i ∈ E.members, (w.host i).outs.countP (Out.carries (Msg.isElect view)) ≤ 1) ∧
    ∀ w : NodeWorld D (BigJob D), (DAGBigCore.machine E).Reach (Undisturbed E view) w →
      ∀ i ∈ E.members, (w.host i).outs.countP (Out.carries (Msg.isElect view)) ≤ 1 := by
  constructor
  · intro w hw i _
    refine ((BigCore.ballots E).elect_le (hw.local i)).trans ?_
    split <;> omega
  · intro w hw i _
    refine ((DAGBigCore.ballots E).elect_le (hw.local i)).trans ?_
    split <;> omega

namespace BigRun

/-- The world after `others`, where what would open an election again is left out. -/
def undisturbedWorld : NodeWorld ℕ (BigJob ℕ) :=
  (BigCore.machine (Env.plain 4 fun _ => 0)).play (Undisturbed (Env.plain 4 fun _ => 0) 0)
    (BigCore.machine (Env.plain 4 fun _ => 0)).world others

end BigRun

theorem one_elect_per_view_four :
    (BigRun.undisturbedWorld.host 0).outs.countP (Out.carries (Msg.isElect 0)) ≠ 0 ∧
      (BigRun.undisturbedWorld.host 0).outs.countP (Out.carries (Msg.isElect 0)) ≤ 1 := by
  have hw : (BigCore.machine (Env.plain 4 fun _ => 0)).Reach
      (Undisturbed (Env.plain 4 fun _ => 0) 0) BigRun.undisturbedWorld :=
    Machine.play_sound _ BigRun.others
  exact ⟨by decide +kernel, (one_elect_per_view _ 0).1 _ hw 0 (by decide)⟩

/-- **Elections that are opened again.** All four nodes follow the code, and every message is delivered
at most once: node 0 broadcasts three `ElectMsg`s for view 0, in the big protocol and in the DAG variant. -/
theorem elections_reopened :
    (∃ (E : Env ℕ) (w : NodeWorld ℕ (BigJob ℕ)), (BigCore.machine E).Reach Machine.anyInput w ∧
      (w.host 0).outs.countP (Out.carries (Msg.isElect 0)) = 3) ∧
    ∃ (E : Env ℕ) (w : NodeWorld ℕ (BigJob ℕ)), (DAGBigCore.machine E).Reach Machine.anyInput w ∧
      (w.host 0).outs.countP (Out.carries (Msg.isElect 0)) = 3 := by
  constructor
  · exact ⟨Env.plain 4 fun _ => 0, BigRun.othersWorld, Machine.play_sound _ _, by decide +kernel⟩
  · exact ⟨Env.plain 4 fun _ => 0, DagRun.promptWorld, DagRun.promptWorld_reach, by decide +kernel⟩

end S2Pac
