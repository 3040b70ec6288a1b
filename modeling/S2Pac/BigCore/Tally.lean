import S2Pac.BigCore.Agreement
import S2Pac.Certified
import S2Pac.Crash
import S2Pac.Elections
import S2Pac.Lib.Quiet
import S2Pac.Redelivery
import S2Pac.Storing

/-!
# What a node of the big protocol has counted and said

A node that is sent nothing but what honest nodes make counts all of it: its counters of reports and of
speed votes and the shares in its elector are those of the messages it has received (`BigCore.tally`).
From there on it is held to what it has to say: it proposes in the view it is in, it opens an election
once it has counted `HightThreshold()` speed votes of its own, and it reports a view whose leader its
elector knows, unless it is still busy with it.
-/

set_option linter.unusedSectionVars false

namespace S2Pac

open Lib

variable {D : Type} [DecidableEq D] {J : Type}

/-! ## Honest nodes -/

/-- **What is assumed of the cryptography**: signatures of a member verify, `HightThreshold()` shares of
distinct members combine to a signature that is long enough to name a leader, and no block hashes to the
zero digest. -/
structure Env.Honest (E : Env D) : Prop where
  signs : ∀ i ∈ E.members, ∀ d, E.verify i d (E.sign i d) = true
  combines : ∀ d (is : List NodeID), is.Nodup → (∀ i ∈ is, i ∈ E.members) →
    is.length = E.hightThreshold → ∃ qc, E.recover d (is.map fun i => E.tsSign i d) = some qc
  long : E.Recovers
  nonzero : ∀ b : Block D, b.hash E ≠ E.zero

theorem Env.plain_honest (n : ℕ) (coin : ℕ → UInt8) (faults : ℤ) :
    { Env.plain n coin with faults := faults }.Honest where
  signs _ _ _ := rfl
  combines _ _ _ _ _ := ⟨_, rfl⟩
  long _ _ _ h := by cases h; exact le_rfl
  nonzero := Env.plain_hash_ne_zero n coin

/-- Node `i` has made the message with its own keys. -/
def Msg.MadeBy (E : Env D) (i : NodeID) : Msg D → Prop
  | .propose p => p.b.author = i ∧ { p with docG := none } = newProposeMsg E i p.b ∧
      ∀ d, p.docG = some d → d.shares = []
  | .vote v => ∃ b, v = newVoteMsg E i b
  | .finVote fv => fv = newFinVoteMsg E i fv.view fv.qc
  | .speedVote sv => ∃ qc, sv = newSpeedVoteMsg E i qc
  | .elect e => e = newElectMsg E i e.view
  | .randomCoin r => r = newRandomCoinMsg E r.leader i r.view
  | .report r => r = newReportMsg E i r.view r.level r.blockQc

theorem madeBy_newProposeMsg {E : Env D} {i : NodeID} {b : Block D} (h : b.author = i) :
    (Msg.propose (newProposeMsg E i b)).MadeBy E i :=
  ⟨h, rfl, fun _ hd => by cases hd⟩

theorem madeBy_newElectMsg (E : Env D) (i : NodeID) (view : ℤ) :
    (Msg.elect (newElectMsg E i view) : Msg D).MadeBy E i := rfl

theorem madeBy_newReportMsg (E : Env D) (i : NodeID) (view : ℤ) (level : ℕ)
    (qc : Option (BlockQC D)) : (Msg.report (newReportMsg E i view level qc)).MadeBy E i := rfl

namespace Msg.MadeBy

variable {E : Env D} {i : NodeID} {m : Msg D}

theorem author (h : m.MadeBy E i) : m.author = i := by
  cases m with
  | propose p =>
    obtain ⟨ha, hp, -⟩ := h
    exact (congrArg ProposeMsg.author hp).trans ha
  | vote v => obtain ⟨b, rfl⟩ := h; rfl
  | finVote fv => exact congrArg FinVoteMsg.author h
  | speedVote sv => obtain ⟨qc, rfl⟩ := h; rfl
  | elect e => exact congrArg ElectMsg.author h
  | randomCoin r => exact congrArg RandomCoinMsg.author h
  | report r => exact congrArg ReportMsg.author h

variable (hE : E.Honest) (hi : i ∈ E.members)
include hE hi

theorem checkSig_sign (d : D) : E.checkSig i d (E.sign i d) = some true := by
  rw [Env.checkSig, if_pos hi, hE.signs i hi]

theorem verify (h : m.MadeBy E i) : m.verify E = some true := by
  cases m with
  | propose p =>
    obtain ⟨ha, hp, -⟩ := h
    have hv : ({ p with docG := none } : ProposeMsg D).verify E = some true := by
      rw [hp]
      show E.checkSig p.b.author _ _ = _
      rw [ha]
      exact checkSig_sign hE hi _
    exact hv
  | vote v => obtain ⟨b, rfl⟩ := h; exact checkSig_sign hE hi _
  | finVote fv => rw [h]; exact checkSig_sign hE hi _
  | speedVote sv => obtain ⟨qc, rfl⟩ := h; exact checkSig_sign hE hi _
  | elect e => rfl
  | randomCoin r => rw [h]; exact checkSig_sign hE hi _
  | report r => rw [h]; exact checkSig_sign hE hi _

theorem passes (h : m.MadeBy E i) (docG : Bool) : m.passes E docG = true := by
  have hv := h.verify hE hi
  cases m with
  | propose p =>
    have hd : p.verifyDocG E = some true := by
      unfold ProposeMsg.verifyDocG
      split
      · rfl
      · next d hd => simp [DocGQCMsg.verify, h.2.2 d hd]
    simp [Msg.passes, hv, hd]
  | _ => simp [Msg.passes, hv]

end Msg.MadeBy

theorem outs_of_steps {M : Machine NodeID (Node D J) (Msg D) Act (Event D)}
    {G : Machine.Guard NodeID (Node D J) (Msg D) Act (Event D)} {self : NodeID} {h : NodeHost D J}
    {P : NodeOut D → Prop}
    (hrecv : ∀ c m r, M.recv self c m = some r → ∀ o ∈ r.2, P o)
    (hact : ∀ c a r, M.act self c a = some r → ∀ o ∈ r.2, P o) (hl : M.Local G self h) :
    ∀ o ∈ h.outs, P o := by
  intro o ho
  obtain ⟨h₀, x, r, -, -, hr, hor, -, -⟩ := hl.origin ho
  cases x with
  | recv m =>
    obtain ⟨⟨s, os⟩, hs, rfl⟩ := Option.map_eq_some_iff.1 hr
    exact hrecv _ _ _ hs o hor
  | act a =>
    obtain ⟨⟨s, os⟩, hs, rfl⟩ := Option.map_eq_some_iff.1 hr
    exact hact _ _ _ hs o hor

/-- The proposer that a message is about. -/
def Msg.proposerOf : Msg D → NodeID
  | .vote v => v.proposer
  | .speedVote sv => sv.proposer
  | m => m.author

/-! ## What the main loop holds a node to -/

namespace Turns

variable {E : Env D} {flagged : Bool} {M : Machine NodeID (Node D J) (Msg D) Act (Event D)}
  {G : Machine.Guard NodeID (Node D J) (Msg D) Act (Event D)} {self : NodeID} {h : NodeHost D J}

theorem proposed (hM : Turns E flagged M) (hl : M.Local G self h) (hb : h.st.booted = true) :
    ∃ o ∈ h.outs, o.carries (Msg.isPropose (h.st.view, self) HEIGHT_1) = true := by
  revert hb
  refine hM.induction (P := fun h => h.st.booted = true →
    ∃ o ∈ h.outs, o.carries (Msg.isPropose (h.st.view, self) HEIGHT_1) = true)
    (fun hb => by cases hb) ?_ hl
  intro h x c' os hl ih ht hb
  have old (hv : c'.view = h.st.view) (hb : h.st.booted = true) :
      ∃ o ∈ h.outs ++ os, o.carries (Msg.isPropose (c'.view, self) HEIGHT_1) = true := by
    obtain ⟨o, ho, hc⟩ := ih hb
    exact ⟨o, List.mem_append_left _ ho, hv ▸ hc⟩
  cases ht with
  | aside hk _ _ => exact old hk.view (hk.booted ▸ hb)
  | store hk _ => exact old hk.view (hk.booted ▸ hb)
  | boot batch _ =>
    refine ⟨_, List.mem_append_right _ (List.mem_singleton_self _), ?_⟩
    simp [newProposeMsg, (hM.started hl).1]
  | advance batch _ _ _ _ _ =>
    refine ⟨_, List.mem_append_right _ (List.mem_singleton_self _), ?_⟩
    simp [newProposeMsg]
  | process hp => cases hp <;> exact old rfl hb
  | _ => exact old rfl hb

theorem not_gathering (hM : Turns E flagged M) (hl : M.Local G self h) (view : ℤ) (height i : ℕ)
    (refs : List (BlockQC D)) : h.st.pc ≠ .gather view height i refs := by
  refine hM.induction (P := fun h => h.st.pc ≠ .gather view height i refs) (by simp [Node.new]) ?_ hl
  intro h x c' os _ ih ht
  cases ht with
  | aside hk _ _ => rw [hk.pc]; exact ih
  | store hk _ => rw [hk.pc]; exact ih
  | elected _ _ _ _ _ => simp
  | told _ _ _ => simp
  | process hp => cases hp <;> simp
  | report _ => simp
  | _ => exact ih

end Turns

section Ballots

variable {E : Env D} {M : NodeMachine D (BigJob D)}
  {G : Machine.Guard NodeID (BigNode D) (Msg D) Act (Event D)} {self : NodeID}
  {h : NodeHost D (BigJob D)} {view : ℤ}

/-- **A node that has counted `HightThreshold()` speed votes of its own has opened an election.** -/
theorem Ballots.elect_of_le (hM : Ballots E M) (hl : M.Local G self h)
    (hle : E.hightThreshold ≤ h.st.speedVoteNums view self) :
    ∃ o ∈ h.outs, o.carries (Msg.isElect view) = true := by
  have hstep (h : NodeHost D (BigJob D)) (x : Input (Msg D) Act) (c' : BigNode D)
      (os : List (NodeOut D)) (hb : Ballot E self h.st x c' os)
      (ih : E.hightThreshold ≤ h.st.speedVoteNums view self →
        0 < h.outs.countP (Out.carries (Msg.isElect view)))
      (hle : E.hightThreshold ≤ c'.speedVoteNums view self) :
      0 < (h.outs ++ os).countP (Out.carries (Msg.isElect view)) := by
    rw [List.countP_append]
    cases hb with
    | other hsame _ => exact Nat.add_pos_left (ih (hsame ▸ hle)) _
    | @counted sv _ _ hnums =>
      by_cases hold : E.hightThreshold ≤ h.st.speedVoteNums view self
      · exact Nat.add_pos_left (ih hold) _
      · -- the speed vote is the node's own, and completes the threshold
        rw [hnums, speedVoteNums_counted] at hle
        by_cases hsv : sv.view = view ∧ sv.author = self
        · rw [if_pos hsv] at hle
          rw [countP_elect_counted, speedVoteNums_counted, if_pos hsv, if_pos ⟨hsv.1, by omega⟩]
          exact Nat.succ_pos _
        · rw [if_neg hsv] at hle
          exact absurd hle hold
  rw [← List.countP_pos_iff]
  induction hl with
  | start =>
    rw [Machine.start, hM.init] at hle
    exact absurd hle (Nat.not_succ_le_zero _)
  | @recv h m s o _ _ hs ih => exact hstep h _ s o (hM.recv _ _ _ _ hs) ih hle
  | @act h a s o _ _ hs ih => exact hstep h _ s o (hM.act _ _ _ _ hs) ih hle

/-- **Only such a node has opened one.** -/
theorem Ballots.le_of_elect (hM : Ballots E M) (hl : M.Local G self h)
    (he : ∃ o ∈ h.outs, o.carries (Msg.isElect view) = true) :
    E.hightThreshold ≤ h.st.speedVoteNums view self := by
  have hstep (h : NodeHost D (BigJob D)) (x : Input (Msg D) Act) (c' : BigNode D)
      (os : List (NodeOut D)) (hb : Ballot E self h.st x c' os)
      (ih : 0 < h.outs.countP (Out.carries (Msg.isElect view)) →
        E.hightThreshold ≤ h.st.speedVoteNums view self)
      (he : 0 < (h.outs ++ os).countP (Out.carries (Msg.isElect view))) :
      E.hightThreshold ≤ c'.speedVoteNums view self := by
    rw [List.countP_append] at he
    cases hb with
    | other hsame hno =>
      have hzero : os.countP (Out.carries (Msg.isElect view)) = 0 := by
        refine List.countP_eq_zero.2 fun o ho hc => ?_
        obtain ⟨m, hm, hP⟩ := Out.carries_iff.1 hc
        cases m with
        | elect e => exact hno o ho e hm
        | _ => cases hP
      rw [hsame]
      exact ih (by omega)
    | @counted sv _ _ hnums =>
      rw [countP_elect_counted] at he
      rw [hnums]
      split at he
      · next hsv => exact hsv.2.ge
      · rw [speedVoteNums_counted]
        exact (ih (by omega)).trans (Nat.le_add_right _ _)
  rw [← List.countP_pos_iff] at he
  induction hl with
  | start => simp [Machine.start] at he
  | @recv h m s o _ _ hs ih => exact hstep h _ s o (hM.recv _ _ _ _ hs) ih he
  | @act h a s o _ _ hs ih => exact hstep h _ s o (hM.act _ _ _ _ hs) ih he

end Ballots

namespace BigSPB

variable {E : Env D} {self : NodeID} {V : Rules D}
  {x : Pool Key (SPB D) (BigJob D) (Msg D) (NodeOut D)}

theorem certified_of_counting (hx : (code E self V).Run x) {k : Key} {j : BigJob D}
    (hj : (k, j) ∈ x.tasks) (hq : j = .speedCount ∨ j = .speedCert) :
    (x.inst k).blockQcs HEIGHT_2 ≠ none := by
  refine hx.witnessed (R := fun _ => True) (fun _ _ _ => trivial) k
    (G := fun s => s.blockQcs HEIGHT_2 ≠ none) (Q := fun j => j = .speedCount ∨ j = .speedCert)
    (O := fun _ => False) ?_ (fun _ _ => id)
    (fun _ _ _ _ _ _ _ _ hstep hs => JobStep.blockQcs_ne_none hstep hs) ?_
    (fun _ _ _ _ _ _ _ _ _ _ _ _ _ => id) trivial (Or.inl ⟨j, hj, hq⟩)
  · intro l m j _ hj hq
    cases m <;> simp_all [code, spawn]
  · intro x hx _ j s' js os _ hstep hnew
    obtain ⟨j', hj', hq⟩ := hnew.resolve_right (by simp)
    cases hstep with
    | speedVote sv _ _ hn => exact Or.inl hn
    | speedCount => exact Or.inr (Or.inl rfl)
    | replay p => rcases mem_waiting hj' with ⟨-, p, -, rfl⟩ | ⟨-, v, -, rfl⟩ <;> simp at hq
    | quorumFirst v hv => rcases V.next_cases _ _ _ _ hj' with rfl | ⟨rfl, -⟩ <;> simp at hq
    | count v =>
      split at hj'
      · rw [List.mem_singleton.1 hj'] at hq
        simp at hq
      · exact absurd hj' List.not_mem_nil
    | replaySpeed =>
      obtain ⟨sv, -, rfl⟩ := List.mem_map.1 hj'
      simp at hq
    | _ => simp_all

theorem certified_of_speedCert (hx : (code E self V).Run x) {k : Key}
    (hs : (x.inst k).speedCert = true) : (x.inst k).blockQcs HEIGHT_2 ≠ none := by
  revert hs
  refine hx.inst_induction (R := fun _ => True)
    (B := fun _ s => s.speedCert = true → s.blockQcs HEIGHT_2 ≠ none) (fun _ _ _ => trivial)
    (fun _ hs => by cases hs) ?_ trivial k
  intro x hx _ k j s' js os hj hstep ih hs
  by_cases hold : (x.inst k).speedCert = true
  · exact JobStep.blockQcs_ne_none hstep (ih hold)
  · cases hstep with
    | speedCert => exact certified_of_counting hx hj (Or.inr rfl)
    | _ => exact absurd hs hold

theorem not_next (hx : (code E self V).Run x) {proposal : Bool}
    (hV : ∀ k v, ∀ j ∈ V.next self k v, isNext proposal j = false) {t : Key × BigJob D}
    (ht : t ∈ x.tasks) : isNext proposal t.2 = false := by
  have hsourced := hx.sourced (R := fun _ => True)
    (T := fun _ (_ : Key) (j : BigJob D) => isNext proposal j = false) (B := fun _ _ _ => True)
    (O := fun _ _ => True)
    (fun _ _ _ => trivial) (fun _ _ _ _ h => h) (fun _ _ _ _ _ => trivial)
    (fun _ _ _ _ => trivial) (fun _ => trivial) ?_ (fun _ _ _ => trivial) ?_ trivial
  · exact hsourced.1 t ht
  · intro l m t _ ht
    cases m <;> simp_all [code, spawn]
  · intro l k s j s' js os _ _ _ hstep
    refine ⟨fun j' hj' => ?_, trivial, fun _ _ => trivial⟩
    cases hstep with
    | replay p => rcases mem_waiting hj' with ⟨-, p, -, rfl⟩ | ⟨-, v, -, rfl⟩ <;> rfl
    | quorumFirst v hv => exact hV _ _ _ hj'
    | count v => split at hj' <;> simp_all
    | speedCount => split at hj' <;> simp_all
    | replaySpeed =>
      obtain ⟨sv, -, rfl⟩ := List.mem_map.1 hj'
      rfl
    | _ => simp_all

end BigSPB

namespace BigCore

variable {E : Env D} {self : NodeID} {c : BigNode D}
  {G : Machine.Guard NodeID (BigNode D) (Msg D) Act (Event D)} {h : NodeHost D (BigJob D)}

/-! ## What a node sends -/

/-- A message that the node has made, for everybody, or something that is no message. -/
def Tells (E : Env D) (self : NodeID) (o : NodeOut D) : Prop :=
  ∀ m, o.msg = some m → o = .bcast m ∧ m.MadeBy E self

theorem tells_bcast {m : Msg D} (h : m.MadeBy E self) : Tells E self (.bcast m : NodeOut D) := by
  rintro m' hm
  cases hm
  exact ⟨rfl, h⟩

theorem tells_event (e : Event D) : Tells E self (.event e : NodeOut D) := by
  rintro m hm
  cases hm

theorem tells_singleton {o : NodeOut D} (h : Tells E self o) : ∀ o' ∈ [o], Tells E self o' :=
  fun _ ho' => List.mem_singleton.1 ho' ▸ h

theorem tells_countSpeedVote (c : BigNode D) (sv : SpeedVoteMsg D) :
    ∀ o ∈ (countSpeedVote E self c sv).2, Tells E self o := by
  intro o ho
  dsimp only [countSpeedVote] at ho
  split at ho
  · exact tells_singleton (tells_bcast (madeBy_newElectMsg E self _)) o ho
  · exact absurd ho List.not_mem_nil

theorem tells_jobStep {V : BigSPB.Rules D} {k : Key} {s s' : SPB D} {j : BigJob D}
    {js : List (BigJob D)} {os : List (NodeOut D)} (h : BigSPB.JobStep E self V k s j s' js os) :
    ∀ o ∈ os, Tells E self o := by
  cases h with
  | replay p => exact tells_singleton (tells_bcast ⟨p.b, rfl⟩)
  | quorumSecond v hv => exact tells_singleton (tells_bcast ⟨_, rfl⟩)
  | newPropose v batch => exact tells_singleton (tells_bcast (madeBy_newProposeMsg rfl))
  | _ => simp

section Steps

variable {V : Variant} {P : Goroutines D (BigJob D)} {rules : BigSPB.Rules D} {has : BigJob D → Prop}
  {c' : BigNode D} {os : List (NodeOut D)}

theorem tells_handling {m : Msg D} (h : Handling E self V P c m c' os) (hV : V ≠ .lean) :
    ∀ o ∈ os, Tells E self o := by
  cases h with
  | counted _ _ => exact tells_countSpeedVote c _
  | finVote hlean _ | tossed hlean _ _ _ => exact absurd hlean hV
  | elected _ _ _ =>
    cases V with
    | lean => exact absurd rfl hV
    | _ => simp [Variant.announce]
  | advance _ _ _ _ =>
    cases V with
    | lean => exact absurd rfl hV
    | _ => exact tells_singleton (tells_bcast (madeBy_newProposeMsg rfl))
  | _ => simp

theorem tells_acting {a : Act} (h : Acting E self V (BigSPB.goroutines E rules has) c a c' os) :
    ∀ o ∈ os, Tells E self o := by
  cases h with
  | boot _ _ | propose _ _ _ _ => exact tells_singleton (tells_bcast (madeBy_newProposeMsg rfl))
  | task _ _ hstep _ => exact tells_jobStep hstep
  | coin hc =>
    cases hc with
    | handed _ _ => exact tells_singleton (tells_event _)
    | _ => simp
  | report _ _ => exact tells_singleton (tells_bcast (madeBy_newReportMsg E self _ _ _))
  | commitor _ =>
    intro o ho
    obtain ⟨b, -, rfl⟩ := List.mem_map.1 ho
    exact tells_event _
  | _ => simp

/-- **All that a node sends goes to everybody**, and it has made it. -/
theorem tells_of_branches {M : NodeMachine D (BigJob D)}
    (hM : Branches E V (BigSPB.goroutines E rules has) M) (hV : V ≠ .lean) (hl : M.Local G self h) :
    ∀ o ∈ h.outs, Tells E self o :=
  outs_of_steps (fun _ _ _ hr => tells_handling (hM.recv _ _ _ _ hr).2 hV)
    (fun _ _ _ hr => tells_acting (hM.act _ _ _ _ hr)) hl

end Steps

theorem tells (hl : (machine E).Local G self h) : ∀ o ∈ h.outs, Tells E self o :=
  tells_of_branches (branches E) (by simp) hl

/-! ## What it has counted -/

/-- A speed vote of node `a` for a block of the view. -/
@[simp] def isSpeedVoteOf (view : ℤ) (a : NodeID) : Msg D → Bool
  | .speedVote sv => decide (sv.view = view ∧ sv.author = a)
  | _ => false

/-- The shares among the messages. -/
def shares (l : List (Msg D)) : List ElectMsg :=
  l.filterMap fun m =>
    match m with
    | .elect e => some e
    | _ => none

theorem mem_shares {l : List (Msg D)} {e : ElectMsg} : e ∈ shares l ↔ Msg.elect e ∈ l := by
  rw [shares, List.mem_filterMap]
  constructor
  · rintro ⟨m, hm, he⟩
    cases m with
    | elect e' => exact Option.some.inj he ▸ hm
    | _ => cases he
  · exact fun h => ⟨_, h, rfl⟩

/-- **What a node has counted for its elections** is what the messages `l` say, -/
structure Counted (E : Env D) (l : List (Msg D)) (c : BigNode D) : Prop where
  speedVotes : ∀ view a, c.speedVoteNums view a = l.countP (isSpeedVoteOf view a)
  elects : ∀ view, c.eletor.Holds E view (Elector.kept view (shares l))

/-- and so are the reports it has counted. -/
structure Tallied (E : Env D) (l : List (Msg D)) (c : BigNode D) : Prop extends Counted E l c where
  reports : ∀ view level, c.reportNums view level = l.countP (Msg.isReport view level)

/-- The node takes the message for what it is. -/
def Welcome (E : Env D) (m : Msg D) : Prop :=
  m.passes E false = true ∧ m.Sound E false true false

section Counted

variable {l : List (Msg D)} {c' : BigNode D}

theorem counted_new : Counted E [] (Node.new E : BigNode D) :=
  ⟨fun _ _ => rfl, fun view => Elector.holds_new view⟩

theorem Counted.congr (hc : Counted E l c) (hs : c'.speedVoteNums = c.speedVoteNums)
    (he : c'.eletor = c.eletor) : Counted E l c' :=
  ⟨hs ▸ hc.speedVotes, he ▸ hc.elects⟩

theorem Counted.pass (hc : Counted E l c) {m : Msg D} (hsv : ∀ sv, m ≠ .speedVote sv)
    (he : ∀ e, m ≠ .elect e) : Counted E (l ++ [m]) c := by
  refine ⟨fun view a => ?_, fun view => ?_⟩
  · rw [hc.speedVotes, List.countP_append]
    cases m with
    | speedVote sv => exact absurd rfl (hsv sv)
    | _ => simp
  · rw [shares, List.filterMap_append]
    cases m with
    | elect e => exact absurd rfl (he e)
    | _ => simpa [shares] using hc.elects view

theorem Counted.speedVote (hc : Counted E l c) (sv : SpeedVoteMsg D) :
    Counted E (l ++ [.speedVote sv]) (countSpeedVote E self c sv).1 := by
  refine ⟨fun view a => ?_, fun view => ?_⟩
  · rw [List.countP_append, List.countP_singleton, ← hc.speedVotes]
    have hcount : (countSpeedVote E a c sv).1.speedVoteNums view a =
        c.speedVoteNums view a + if sv.view = view ∧ sv.author = a then 1 else 0 :=
      speedVoteNums_counted c sv
    show (countSpeedVote E a c sv).1.speedVoteNums view a = _
    simpa using hcount
  · simpa [shares, List.filterMap_append, countSpeedVote] using hc.elects view

theorem Counted.add (hc : Counted E l c) {e : ElectMsg} {el : Elector} {res : Except ElectErr NodeID}
    (hadd : c.eletor.add E e = some (el, res)) : Counted E (l ++ [.elect e]) { c with eletor := el } := by
  refine ⟨fun view a => ?_, fun view => ?_⟩
  · rw [List.countP_append]
    simpa using hc.speedVotes view a
  · have h := (hc.elects view).add hadd
    rw [Elector.kept] at h ⊢
    rw [shares, List.filterMap_append, List.foldl_append]
    exact h

variable {V : Variant} {P : Goroutines D (BigJob D)} {m : Msg D} {os : List (NodeOut D)}

theorem Counted.handling (hc : Counted E l c) (hrec : E.Recovers)
    (h : Handling E self V P c m c' os) (hV : V ≠ .lean) (hp : m.passes E V.docG = true) :
    Counted E (l ++ [m]) c' := by
  cases h with
  | ignored hm =>
    have hno := (hm hp).2.resolve_left hV
    exact hc.pass (by rintro sv rfl; exact hno) (by rintro e rfl; exact hno)
  | panics hf =>
    rcases hf.of_passes hp with ⟨e, rfl, hadd⟩ | ⟨r, rfl, -⟩
    · exact absurd hadd (Elector.add_ne_none hrec _ _)
    · exact (hc.pass (by simp) (by simp)).congr rfl rfl
  | @counted sv _ _ =>
    have hsv : Counted E (l ++ [.speedVote sv]) (countSpeedVote E self c sv).1 := hc.speedVote sv
    exact hsv.congr rfl rfl
  | shares hadd _ | elected hadd _ _ => exact (hc.add hadd).congr rfl rfl
  | tossed hlean _ _ _ | speedVote hlean _ => exact absurd hlean hV
  | _ => exact (hc.pass (by simp) (by simp)).congr rfl rfl

theorem reportNums_of_handling (h : Handling E self V P c m c' os) (hV : V ≠ .lean)
    (hp : m.passes E V.docG = true) (hlev : ∀ r, m = .report r → r.level ≤ LEVEL_0) (view : ℤ)
    (level : ℕ) : c'.reportNums view level =
      c.reportNums view level + if Msg.isReport view level m then 1 else 0 := by
  cases h with
  | ignored hm =>
    have hno := (hm hp).2.resolve_left hV
    cases m with
    | report r => exact hno.elim
    | _ => simp
  | panics hf =>
    rcases hf.of_passes hp with ⟨e, rfl, -⟩ | ⟨r, rfl, hlt⟩
    · simp [Node.crash]
    · exact absurd (hlev r rfl) (not_le.2 hlt)
  | count _ _ | advance _ _ _ _ | enter _ _ _ => exact Turns.countReport_nums (E := E) c _ view level
  | _ => simp [countSpeedVote]

theorem reportNums_of_acting {a : Act} (h : Acting E self V P c a c' os) :
    c'.reportNums = c.reportNums := by
  cases h with
  | task _ _ _ hwork => exact hwork.reportNums
  | coin hc => cases hc <;> rfl
  | _ => rfl

end Counted

/-- **A node counts all speed votes and shares that it accepts.** -/
theorem counted_of_branches {V : Variant} {rules : BigSPB.Rules D} {has : BigJob D → Prop}
    {M : NodeMachine D (BigJob D)} (hM : Branches E V (BigSPB.goroutines E rules has) M)
    (hV : V ≠ .lean) (hrec : E.Recovers) (hl : M.Local G self h)
    (hgood : ∀ m ∈ h.received, m.passes E V.docG = true) : Counted E h.received h.st := by
  induction hl with
  | start =>
    rw [Machine.start, hM.init]
    exact counted_new
  | recv _ _ hs ih =>
    have hc := ih fun m hm => hgood m (List.mem_append_left _ hm)
    exact hc.handling hrec (hM.recv _ _ _ _ hs).2 hV
      (hgood _ (List.mem_append_right _ (List.mem_singleton_self _)))
  | act _ _ hs ih =>
    have hstep := hM.act _ _ _ _ hs
    obtain ⟨-, hnums, -⟩ := hstep.uncounted fun _ _ _ _ _ _ hs => hs.shareless
    exact (ih hgood).congr hnums hstep.eletor

/-- **A node counts all that it is sent**, as long as it can take it for what it is. -/
theorem tally (hrec : E.Recovers) (hl : (machine E).Local G self h)
    (hgood : ∀ m ∈ h.received, Welcome E m) : Tallied E h.received h.st := by
  refine ⟨counted_of_branches (branches E) (by simp) hrec hl fun m hm => (hgood m hm).1, ?_⟩
  intro view level
  induction hl with
  | start => rfl
  | @recv h m s o _ _ hs ih =>
    obtain ⟨hp, hsound⟩ := hgood m (List.mem_append_right _ (List.mem_singleton_self _))
    have hlev : ∀ r, m = .report r → r.level ≤ LEVEL_0 := by
      rintro r rfl
      exact hsound.2
    have hr := reportNums_of_handling ((branches E).recv _ _ _ _ hs).2 (by simp) hp hlev view level
    dsimp only at hr ⊢
    rw [hr, ih fun m hm => hgood m (List.mem_append_left _ hm), List.countP_append,
      List.countP_singleton]
  | act _ _ hs ih =>
    dsimp only
    rw [reportNums_of_acting (acting hs)]
    exact ih hgood

/-! ## What it has to report -/

theorem certified_of_tested (hl : (machine E).Local G self h) {k : Key} {height : ℕ}
    (ht : Turns.Tested (h.st.spbInstances k) height) :
    height ≤ HEIGHT_2 ∧ (h.st.spbInstances k).blockQcs height ≠ none := by
  rcases ht with ⟨rfl, hs⟩ | ⟨rfl, hd⟩
  · exact ⟨le_rfl, BigSPB.certified_of_speedCert (runs.pool hl) hs⟩
  · obtain ⟨qc, hqc⟩ := SPB.decCert_some hd (Nat.zero_le _)
    exact ⟨Nat.zero_le _, hqc ▸ Option.some_ne_none qc⟩

/-- `getBlock` finds what the tests of `processCoin` rest on. -/
theorem fetched (hl : (machine E).Local G self h) (hone : OneBlock E h.received)
    (hz : NoZeroVote E h.received) {leader : NodeID} {view : ℤ} {height : ℕ}
    (hpc : h.st.pc = .fetch leader view height) :
    getBlock h.st.store ((h.st.spbInstances (view, leader)).blockHash height) ≠ none := by
  have hok := (turns.handing hl fun h hl => recorded hl).1
  rw [hpc] at hok
  obtain ⟨hh, hqc⟩ := certified_of_tested hl hok.2
  obtain ⟨qc, hqc⟩ := Option.ne_none_iff_exists'.1 hqc
  have hsub : h.received.filter (Msg.passes E false) ⊆ h.received := List.filter_sublist.subset
  obtain ⟨he, hne⟩ := BigSPB.fits (conducts E) ((conducts E).run hl) ⟨hone.mono hsub, hz.mono hsub⟩
    (view, leader) height qc hqc
  obtain ⟨b, hb, -⟩ := (conducts E).resolves hl hh (he ▸ hne)
  rw [hb]
  exact Option.some_ne_none b

/-- A leader that is new to the elector is one that `processCoin` is entered with. -/
theorem leaders_of_handling {V : Variant} {P : Goroutines D (BigJob D)} {m : Msg D} {c' : BigNode D}
    {os : List (NodeOut D)} (h : Handling E self V P c m c' os) (hV : V ≠ .lean) {view : ℤ}
    (hl : c'.eletor.leaders view ≠ none) :
    c.eletor.leaders view ≠ none ∨ Turns.busy c'.pc = some view := by
  cases h with
  | shares hadd hno =>
    cases Elector.adds_of_add hadd with
    | elected _ hne _ _ => exact absurd (hno _ rfl) hne
    | _ => exact Or.inl hl
  | @elected e _ _ hadd hne _ =>
    cases Elector.adds_of_add hadd with
    | kept _ => exact absurd rfl hne
    | elected _ _ _ _ =>
      by_cases hv : view = e.view
      · exact Or.inr (by rw [hv]; rfl)
      · dsimp only at hl
        rw [Function.update_of_ne hv] at hl
        exact Or.inl hl
  | tossed hlean _ _ _ => exact absurd hlean hV
  | _ => exact Or.inl hl

theorem busy_of_process {second : NodeID → ℤ → Bool} {c c' : BigNode D} {os : List (NodeOut D)}
    (hs : CoinStep second c c' os) (hfetch : ∀ leader view height, c.pc = .fetch leader view height →
      getBlock c.store ((c.spbInstances (view, leader)).blockHash height) ≠ none) {view : ℤ}
    (hb : Turns.busy c.pc = some view) : Turns.busy c'.pc = some view := by
  cases hs with
  | speed hpc _ => rw [hpc] at hb; exact hb
  | slow hpc => rw [hpc] at hb; exact hb
  | second hpc _ => rw [hpc] at hb; exact hb
  | undecided hpc _ => rw [hpc] at hb; exact hb
  | missing hpc hnone => exact absurd hnone (hfetch _ _ _ hpc)
  | found hpc _ => rw [hpc] at hb; exact hb
  | handed hpc _ => rw [hpc] at hb; exact hb

/-- **A view whose leader the elector knows is reported**, or the main loop is still busy with it. -/
theorem reports (hl : (machine E).Local G self h) (hone : OneBlock E h.received)
    (hz : NoZeroVote E h.received) {view : ℤ} (hlead : h.st.eletor.leaders view ≠ none) :
    Turns.busy h.st.pc = some view ∨
      ∃ o ∈ h.outs, o.carries (Msg.isReportOf view) = true := by
  induction hl with
  | start => exact absurd rfl hlead
  | @recv h m s o hl _ hs ih =>
    have hsub : h.received ⊆ h.received ++ [m] := List.subset_append_left _ _
    obtain ⟨hready, hhandling⟩ := (branches E).recv _ _ _ _ hs
    have hidle := (Node.idle_of_ready hready).2
    -- at the top of the main loop, what is due is reported
    have hold : h.st.eletor.leaders view ≠ none →
        ∃ o' ∈ h.outs ++ o, o'.carries (Msg.isReportOf view) = true := by
      intro hlead
      rcases ih (hone.mono hsub) (hz.mono hsub) hlead with hb | ⟨o', ho', hc⟩
      · rw [hidle] at hb
        cases hb
      · exact ⟨o', List.mem_append_left _ ho', hc⟩
    exact (leaders_of_handling hhandling (by simp) hlead).symm.imp_right hold
  | @act h a s o hl _ hs ih =>
    have hold : s.eletor = h.st.eletor → Turns.busy h.st.pc = some view ∨
        ∃ o' ∈ h.outs ++ o, o'.carries (Msg.isReportOf view) = true := by
      intro he
      rcases ih hone hz (he ▸ hlead) with hb | ⟨o', ho', hc⟩
      · exact Or.inl hb
      · exact Or.inr ⟨o', List.mem_append_left _ ho', hc⟩
    cases turns.act _ _ _ _ hs with
    | aside hk _ _ =>
      dsimp only
      rw [hk.pc]
      exact hold hk.eletor
    | process hp =>
      have he : s.eletor = h.st.eletor := by cases hp <;> rfl
      exact (hold he).imp_left (busy_of_process hp fun _ _ _ hpc => fetched hl hone hz hpc)
    | @report leader view' hpc =>
      rcases hold rfl with hb | hrep
      · rw [hpc] at hb
        obtain rfl : view' = view := Option.some.inj hb
        refine Or.inr ⟨_, List.mem_append_right _ (List.mem_singleton_self _), ?_⟩
        simp [newReportMsg]
      · exact Or.inr hrep
    | _ => exact hold rfl

theorem not_callBack (hl : (machine E).Local G self h) {t : Key × BigJob D} (ht : t ∈ h.st.tasks) :
    t.2 ≠ .callBack := by
  have hno : BigSPB.isNext false t.2 = false := by
    refine BigSPB.not_next (runs.pool hl) (fun k v j hj => ?_) ht
    dsimp only [BigSPB.bigRules] at hj
    split at hj <;> simp_all
  intro h
  rw [h] at hno
  cases hno

end BigCore

end S2Pac
