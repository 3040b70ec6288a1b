import S2Pac.BigSPB.Votes
import S2Pac.Certificates

/-!
# Worlds of the big protocols

What follows from the counts of the instances when the world is orderly: every node votes once, a
certificate that a node makes is sound, and `SpeedCert()` at a node stands for `HightThreshold()` nodes
that hold the height-2 certificate.
-/

set_option linter.unusedSectionVars false

namespace S2Pac

open Lib

variable {D : Type} [DecidableEq D]

namespace BigSPB

/-- The nodes of the machine run the goroutines of the big instances. -/
structure Runs (E : Env D) (V : Rules D) (M : NodeMachine D (BigJob D)) : Prop where
  pool : ∀ {G : Machine.Guard NodeID (BigNode D) (Msg D) Act (Event D)} {self : NodeID}
    {h : NodeHost D (BigJob D)}, M.Local G self h → (code E self V).Run (pool h)

namespace Runs

variable {E : Env D} {V : Rules D} {M : NodeMachine D (BigJob D)}
  {G : Machine.Guard NodeID (BigNode D) (Msg D) Act (Event D)} {self : NodeID}
  {h : NodeHost D (BigJob D)} {w : NodeWorld D (BigJob D)} (hM : Runs E V M)
include hM

/-! ## A node -/

theorem held (hl : M.Local G self h) (k : Key) : Held E V h.received k (h.st.spbInstances k) :=
  (run_sourced (hM.pool hl)).2.1 k

theorem sent (hl : M.Local G self h) {o : NodeOut D} (ho : o ∈ h.outs) :
    Sent E self V h.received o :=
  (run_sourced (hM.pool hl)).2.2 o ho

theorem voted (hl : M.Local G self h) {o : NodeOut D} (ho : o ∈ h.outs) {v : VoteMsg D}
    (hm : o.msg = some (.vote v)) : ∃ p, Msg.propose p ∈ h.received ∧
      o = .bcast (.vote v) ∧ v = newVoteMsg E self p.b := by
  cases hM.sent hl ho with
  | other hoth =>
    unfold Other at hoth
    rw [hm] at hoth
    exact hoth.elim
  | @vote p hp =>
    cases hm
    exact ⟨p, hp, rfl, rfl⟩
  | _ => cases hm

theorem names (hl : M.Local G self h) {k : Key} {height : ℕ} {q : BlockQC D}
    (hq : (h.st.spbInstances k).blockQcs height = some q) : q.Names k.1 height k.2 := by
  obtain ⟨-, v, -, hk, hh, rfl⟩ := (hM.held hl k).blockQcs height q hq
  exact ⟨rfl, hh, (congrArg Prod.snd hk).symm⟩

/-! ## A world -/

section World

variable (ho : Orderly M w) (hw : M.Reach G w)
include ho hw

theorem voting : Voting E M w where
  voted i hi o hom v hm := by
    obtain ⟨p, hp, -, hv⟩ := hM.voted (hw.local i) hom hm
    exact ⟨p, hp, hv⟩
  once i hi k height := by
    have hr := ho.proper_of_received hw hi
    by_cases hh : height ≤ HEIGHT_2
    · exact (Nat.le_add_left _ _).trans (votes_le_one (hM.pool (hw.local i)) hr
        (fun height => ho.propose_le_one hw k height hi) hh)
    · refine le_of_eq_of_le (List.countP_eq_zero.2 fun o hom hc => ?_) (Nat.zero_le _)
      obtain ⟨m, hm, hP⟩ := Out.carries_iff.1 hc
      cases m with
      | vote v =>
        obtain ⟨p, hp, -, rfl⟩ := hM.voted (hw.local i) hom hm
        obtain ⟨-, -, hph, hle⟩ := hr _ hp
        have hP : p.b.height = height := (of_decide_eq_true hP).2
        omega
      | _ => simp at hP

/-- When a node has counted `HightThreshold()` votes, at whatever time, the certificate it makes of one
is sound. -/
theorem makeQC_sound {i : NodeID} (hi : i ∈ M.hosts) (hl : M.Local G i h)
    (hpre : h.received <+: (w.host i).received) {v : VoteMsg D} (hv : Msg.vote v ∈ h.received)
    (hh : v.height ≤ HEIGHT_2)
    (hnums : E.hightThreshold ≤ (h.st.spbInstances (v.view, v.proposer)).voteNums v.height) :
    QcSound E M w (v.makeQC (v.view, v.proposer)) := by
  have hr : AllProper h.received := fun m hm => ho.proper_of_received hw hi m (hpre.subset hm)
  have hone : ∀ height, h.received.countP (Msg.isPropose (v.view, v.proposer) height) ≤ 1 :=
    fun height => hpre.sublist.countP_le.trans (ho.propose_le_one hw _ height hi)
  refine (hM.voting ho hw).qcSound ho hw hi (hpre.subset hv) (hnums.trans ?_)
  exact (voteNums_le (hM.pool hl) hr hone hh).trans hpre.sublist.countP_le

theorem blockQcs_sound {i : NodeID} (hi : i ∈ M.hosts) (hl : M.Local G i h)
    (hpre : h.received <+: (w.host i).received) {k : Key} {height : ℕ} {q : BlockQC D}
    (hq : (h.st.spbInstances k).blockQcs height = some q) : QcSound E M w q := by
  obtain ⟨hle, v, hv, rfl, rfl, rfl⟩ := (hM.held hl k).blockQcs height q hq
  refine hM.makeQC_sound ho hw hi hl hpre hv hle ?_
  have honce : ((h.st.spbInstances (v.view, v.proposer)).blockQcs v.height).isSome.toNat +
      pending h.st.tasks (v.view, v.proposer) (toCertify v.height) ≤
      if E.hightThreshold ≤ (h.st.spbInstances (v.view, v.proposer)).voteNums v.height
      then 1 else 0 := certify_once (hM.pool hl) v.height
  rw [hq] at honce
  by_contra hlt
  rw [if_neg hlt] at honce
  simp at honce

/-- **`SpeedCert()` stands for `HightThreshold()` speed votes** of as many nodes. -/
theorem speedVoters {i : NodeID} (hi : i ∈ M.hosts) {k : Key}
    (hs : ((w.host i).st.spbInstances k).speedCert = true) :
    ∃ S ⊆ M.hosts.toFinset, E.hightThreshold ≤ S.card ∧
      ∀ j ∈ S, ∃ o ∈ (w.host j).outs, o.carries (isSpeedVoteAt V k) = true := by
  have hx := hM.pool (hw.local i)
  have hcount : E.hightThreshold ≤ (w.host i).received.countP (isSpeedVoteAt V k) :=
    (le_speedVoteNums hx hs).trans (speedVoteNums_le hx)
  have hname : ∀ j ∈ M.hosts, ∀ o ∈ (w.host j).outs, ∀ m, o.msg = some m →
      isSpeedVoteAt V k m = true → m.author = j := by
    intro j hj o hom m hm hP
    cases m with
    | speedVote sv => exact (ho.signed j hj o hom _ hm).1
    | _ => simp at hP
  have hone : ∀ j ∈ M.hosts, (w.host j).outs.countP (Out.carries (isSpeedVoteAt V k)) ≤ 1 := by
    intro j hj
    refine (List.countP_mono_left fun o _ hc => ?_).trans
      (speedVote_le_one (k := k) (hM.pool (hw.local j)))
    obtain ⟨m, hm, hP⟩ := Out.carries_iff.1 hc
    refine Out.carries_iff.2 ⟨m, hm, ?_⟩
    cases m <;> simp_all
  obtain ⟨S, hS, hcard, hvotes⟩ := hw.exists_authors hi hname hone hcount
  refine ⟨S, hS, hcard, fun j hj => ?_⟩
  obtain ⟨m, hm, hP, hjm⟩ := hvotes j hj
  obtain ⟨j', hj', o, hom, hmsg⟩ := hw.sender hi hm
  have hmsg := Out.msg_of_msgTo hmsg
  obtain rfl : j' = j := (hname j' hj' o hom m hmsg hP).symm.trans hjm
  exact ⟨o, hom, Out.carries_iff.2 ⟨m, hmsg, hP⟩⟩

end World

end Runs

end BigSPB

end S2Pac
