import S2Pac.BigCore.Agreement
import S2Pac.Certified

/-!
# What `QCLEvel()` says of an accepted height-2 block

A height-2 block carries the height-1 certificate of its author. The lean instance keeps that
certificate when it accepts the block, so that from then on it reports `LEVEL_1` or `LEVEL_2`. The
instance of the big protocol makes its certificates of the votes that it has counted itself, and its
`processProposeMsg` leaves the one in the block alone: where the votes lag behind the block it reports
`LEVEL_0`, even with the height-2 certificate in hand.
-/

set_option linter.unusedSectionVars false

namespace S2Pac

open Lib BigSPB

variable {D : Type} [DecidableEq D]

/-- **The reported level is honest**: an instance that has recorded a height-2 block reports `LEVEL_1`
or `LEVEL_2`, and `LEVEL_2` if it has the height-2 certificate. -/
def SPB.HonestLevel (E : Env D) (s : SPB D) : Prop :=
  s.blockHash HEIGHT_2 ≠ E.zero →
    (s.qcLEvel.1 = LEVEL_1 ∨ s.qcLEvel.1 = LEVEL_2) ∧
      (s.blockQcs HEIGHT_2 ≠ none → s.qcLEvel.1 = LEVEL_2)

/-- What the level rests on: a recorded height-2 block comes with a height-1 certificate. -/
def SPB.Endorses (E : Env D) (s : SPB D) : Prop :=
  s.blockHash HEIGHT_2 ≠ E.zero → s.blockQcs HEIGHT_1 ≠ none

theorem SPB.Endorses.honestLevel {E : Env D} {s : SPB D} (h : s.Endorses E) : s.HonestLevel E := by
  intro hrec
  obtain ⟨qc₁, h₁⟩ := Option.ne_none_iff_exists'.1 (h hrec)
  unfold SPB.qcLEvel
  cases h₂ : s.blockQcs HEIGHT_2 with
  | none =>
    rw [h₁]
    exact ⟨Or.inl rfl, fun hne => absurd rfl hne⟩
  | some qc₂ =>
    rw [h₁]
    exact ⟨Or.inr rfl, fun _ => rfl⟩

/-! ## The lean protocol -/

namespace Core

variable {E : Env D} {self : NodeID}

/-- The step that records a height-2 hash keeps the certificate of the block. -/
theorem JobStep.endorses {k : Key} {s s' : SPB D} {j : SpbJob D} {js : List (SpbJob D)}
    {os : List (NodeOut D)} (h : JobStep E self k s j s' js os) (hs : s.Endorses E) :
    s'.Endorses E := by
  intro hrec
  cases h with
  | proposeFirst p _ => exact hs (by simpa using hrec)
  | proposeSecond p qc _ _ _ => simp
  | finAccept fv qc _ _ _ _ =>
    have := hs hrec
    simpa using this
  | _ => exact hs hrec

theorem endorses {x : Pool Key (SPB D) (SpbJob D) (Msg D) (NodeOut D)}
    (hx : (freeCode E spawn (JobStep E self)).Run x) (k : Key) : (x.inst k).Endorses E := by
  refine hx.inst_induction (R := fun _ => True) (B := fun _ s => s.Endorses E)
    (fun _ _ _ => trivial) (fun _ hrec => absurd rfl hrec) ?_ trivial k
  intro x _ _ k j s' js os _ hs hend
  exact hs.endorses hend

end Core

/-! ## The big protocol -/

namespace BigCore

variable {E : Env D} {self : NodeID} {k : Key}

/-- **The runs in which the votes do not lag**: instance `k` has its height-1 certificate when it
accepts a height-2 block. -/
def Endorsed (k : Key) : Machine.Guard NodeID (BigNode D) (Msg D) Act (Event D) :=
  fun _ h x =>
    match x with
    | .act (.task i) => ∀ t ∈ h.st.tasks[i]?, t.1 = k → accepts (h.st.spbInstances k) t.2 →
        (h.st.spbInstances k).blockQcs HEIGHT_1 ≠ none
    | _ => True

instance (i : NodeID) (h : NodeHost D (BigJob D)) (x : Input (Msg D) Act) :
    Decidable (Endorsed k i h x) :=
  match x with
  | .act (.task _) => by unfold Endorsed; infer_instance
  | .recv _ | .act .boot | .act .main | .act .callback | .act .commitor | .act (.makeBatch _) =>
    instDecidableTrue

theorem endorses_of_jobStep {s s' : SPB D} {j : BigJob D} {js : List (BigJob D)}
    {os : List (NodeOut D)} (h : JobStep E self bigRules k s j s' js os)
    (hacc : accepts s j → s.blockQcs HEIGHT_1 ≠ none) (hs : s.Endorses E) : s'.Endorses E := by
  intro hrec
  apply ((conducts E).grows self k s j s' js os h).blockQcs
  by_cases ha : accepts s j
  · exact hacc ha
  · exact hs (blockHash_of_not_accepts h ha ▸ hrec)

/-- **Where the votes do not lag, a recorded height-2 block comes with a height-1 certificate.** -/
theorem endorses {h : NodeHost D (BigJob D)} (hl : (machine E).Local (Endorsed k) self h) :
    (h.st.spbInstances k).Endorses E := by
  have hs := hl.localSteps
  clear hl
  induction hs with
  | refl => exact fun hrec => absurd rfl hrec
  | tail _ hstep ih =>
    rcases (conducts E).step_spb hstep k with he | ⟨i, j, js, os, hg, hi, hjob⟩
    · rw [he]
      exact ih
    · exact endorses_of_jobStep hjob (fun hacc => hg (k, j) hi rfl hacc) ih

end BigCore

/-- **The reported level is honest** in the big protocol where the votes do not lag, and always in the
lean one. -/
theorem reported_level_honest (E : Env D) (self : NodeID) (k : Key) :
    (∀ h, (BigCore.machine E).Local (BigCore.Endorsed k) self h →
      (h.st.spbInstances k).HonestLevel E) ∧
    ∀ h, (Core.machine E).Local Machine.anyInput self h → (h.st.spbInstances k).HonestLevel E :=
  ⟨fun _ hl => (BigCore.endorses hl).honestLevel,
    fun _ hl => (Core.endorses ((Core.conducts E).run hl) k).honestLevel⟩

namespace BigRun

/-- Node 0 proposes its two blocks to the nodes 0, 1 and 2. The votes for the first one go to node 0, and
in time to the others if it says so; those for the second one go to node 1. -/
def pair (inTime : Bool) : List (NodeOrder ℕ) :=
  bootFour ++ propose 0 HEIGHT_1 [0, 1, 2] 0 ++
  votes 0 HEIGHT_1 (if inTime then [0, 1, 2] else [0]) 0 ++
  propose 0 HEIGHT_2 [0, 1, 2] 0 ++ votes 0 HEIGHT_2 [1] 0

/-- The world after it, where the votes do not lag. -/
def pairWorld : NodeWorld ℕ (BigJob ℕ) :=
  (BigCore.machine (Env.plain 4 fun _ => 0)).play (BigCore.Endorsed (0, 0))
    (BigCore.machine (Env.plain 4 fun _ => 0)).world (pair true)

/-- The world after it. -/
def laggingWorld : NodeWorld ℕ (BigJob ℕ) :=
  (BigCore.machine (Env.plain 4 fun _ => 0)).play Machine.anyInput
    (BigCore.machine (Env.plain 4 fun _ => 0)).world (pair false)

end BigRun

theorem reported_level_honest_pair :
    ((BigRun.pairWorld.host 1).st.spbInstances (0, 0)).blockQcs HEIGHT_2 ≠ none ∧
      ((BigRun.pairWorld.host 1).st.spbInstances (0, 0)).qcLEvel.1 = LEVEL_2 ∧
      ((Overwritten.run false).st.spbInstances (0, 1)).qcLEvel.1 = LEVEL_2 := by
  have hreach : (BigCore.machine (Env.plain 4 fun _ => 0)).Reach (BigCore.Endorsed (0, 0))
      BigRun.pairWorld := Machine.play_sound _ (BigRun.pair true)
  have hl : (BigCore.machine (Env.plain 4 fun _ => 0)).Local (BigCore.Endorsed (0, 0)) 1
      (BigRun.pairWorld.host 1) := hreach.local 1
  have hbig : ((BigRun.pairWorld.host 1).st.spbInstances (0, 0)).blockHash HEIGHT_2 ≠ 0 ∧
      ((BigRun.pairWorld.host 1).st.spbInstances (0, 0)).blockQcs HEIGHT_2 ≠ none := by
    decide +kernel
  have hlean : ((Overwritten.run false).st.spbInstances (0, 1)).blockHash HEIGHT_2 ≠ 0 ∧
      ((Overwritten.run false).st.spbInstances (0, 1)).blockQcs HEIGHT_2 ≠ none := by
    decide +kernel
  exact ⟨hbig.2, ((reported_level_honest _ 1 (0, 0)).1 _ hl hbig.1).2 hbig.2,
    ((reported_level_honest _ 0 (0, 1)).2 _ (Overwritten.run_local false) hlean.1).2 hlean.2⟩

/-- **The votes lag behind the block.** Four nodes keep to the protocol. Node 1 has accepted the
height-2 block of node 0 and has its height-2 certificate, and reports `LEVEL_0`. -/
theorem level_zero_of_accepted :
    ∃ (E : Env ℕ) (w : NodeWorld ℕ (BigJob ℕ)), (BigCore.machine E).Reach Machine.anyInput w ∧
      ((w.host 1).st.spbInstances (0, 0)).blockHash HEIGHT_2 ≠ E.zero ∧
      ((w.host 1).st.spbInstances (0, 0)).blockQcs HEIGHT_2 ≠ none ∧
      ((w.host 1).st.spbInstances (0, 0)).qcLEvel.1 = LEVEL_0 := by
  refine ⟨Env.plain 4 fun _ => 0, BigRun.laggingWorld, Machine.play_sound _ _, ?_⟩
  decide +kernel

end S2Pac
