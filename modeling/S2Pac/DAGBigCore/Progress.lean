import S2Pac.BigSPB.Rest
import S2Pac.DAGBigCore.Wakeup
import S2Pac.Emitted

/-!
# Where the DAG variant can stop

A node of the DAG variant goes on to height 2 when a callback finds `HightThreshold()` height-1
certificates, and such a callback is not lost. To the next view it goes when its coin finds
`HightThreshold()` height-2 certificates, and the coin of a view is tossed once: when it comes before the
certificates, or when the leader's block is not there, the node stays in the view for good.

Nothing else can stop the nodes. The commitor leaves out the blocks that it does not find, so that the main
loop does not wait for it in vain; and in a view that a quorum of nodes has reached every node gets all
certificates and learns the leader. So when no live node can move, a quorum has reached a view, less than a
quorum has left it, and who is still in it, or in an earlier one, has missed the coin of its view
(`stops_only_missed`).
-/

set_option linter.unusedSectionVars false

namespace S2Pac

open Lib BigSPB

variable {D : Type} [DecidableEq D]

namespace DAGBigCore

variable {E : Env D} {self : NodeID} {c : BigNode D}
  {G : Machine.Guard NodeID (BigNode D) (Msg D) Act (Event D)} {h : NodeHost D (BigJob D)}

/-! ## What a node sends and counts -/

theorem tells (hl : (machine E).Local G self h) : ∀ o ∈ h.outs, BigCore.Tells E self o :=
  BigCore.tells_of_branches (branches E) (by simp) hl

/-! ## The order of the views -/

/-- **A node has proposed the height-1 block of every view up to its own.** -/
theorem entered (hl : (machine E).Local G self h) (hb : h.st.booted = true) {view : ℤ}
    (h0 : 0 ≤ view) (hle : view ≤ h.st.view) : (view, HEIGHT_1) ∈ proposalKeys h.outs := by
  revert hb hle
  refine induction (P := fun h => h.st.booted = true → view ≤ h.st.view →
    (view, HEIGHT_1) ∈ proposalKeys h.outs) (fun hb => nomatch hb) ?_ hl
  intro h x c' os hl ih _ _ hm hb hle
  have old (hbooted : h.st.booted = true) (hview : view ≤ h.st.view) :
      (view, HEIGHT_1) ∈ proposalKeys (h.outs ++ os) := by
    rw [proposalKeys_append]
    exact List.mem_append_left _ (ih hbooted hview)
  cases hm with
  | aside hs _ => exact old (hs.booted ▸ hb) (hs.view ▸ hle)
  | boot batch hnot =>
    obtain ⟨-, -, hview, hheight⟩ := (ordered hl).asleep hnot
    have hv : view = h.st.view := le_antisymm hle (hview ▸ h0)
    rw [hv, ← hheight]
    exact mem_sent h.outs (newProposeMsg E self ⟨self, h.st.view, h.st.height, batch, none, []⟩)
  | weak hs => exact old (hs.booted ▸ hb) (hs.view ▸ hle)
  | process hs => cases hs <;> exact old hb hle
  | leave _ => exact old (by simpa using hb) (by simpa using hle)
  | advance _ _ hold _ hs => exact old hold (by simpa [hs.view] using hle)
  | @propose view' height i refs batch bs hpc _ _ =>
    have hb : h.st.booted = true := (ordered hl).booted (by simp [hpc])
    obtain ⟨hnext, -⟩ := (ordered hl).next _ _ _ _ hpc
    have hle : view ≤ view' := hle
    rcases hnext with ⟨hv, hh⟩ | ⟨hv, -⟩
    · by_cases hlt : view ≤ h.st.view
      · exact old hb hlt
      · -- the view that the node enters
        have he : view = view' := by omega
        rw [he, ← hh]
        exact mem_sent h.outs (newProposeMsg E self ⟨self, view', height, batch, none, refs⟩)
    · exact old hb (hv ▸ hle)
  | _ => exact old hb hle

/-! ## The commitor -/

/-- The commitor of the DAG variant walks along no parents, -/
theorem not_walking (hl : (machine E).Local G self h) :
    h.st.commitor.work = .idle ∨ ∃ queue, h.st.commitor.work = .bfs queue := by
  refine (conducts E).log_induction (fun _ _ => step_of_commitor)
    (R := fun _ c _ => c.work = .idle ∨ ∃ queue, c.work = .bfs queue) (Or.inl rfl)
    (fun _ _ _ _ ih => ih) (fun _ _ _ _ _ ih _ hc => ?_) (fun _ _ _ _ _ _ ih _ hr => ?_) hl
  · rw [Commitor.work_of_commit hc]
    exact ih
  · cases DAGCommitor.step_of_run hr with
    | finish _ => exact Or.inl rfl
    | _ => exact Or.inr ⟨_, rfl⟩

/-- so that it has something to do while its channel is not empty. -/
theorem exists_run (E : Env D) (st : Store D) {cm : Commitor D}
    (hwork : cm.work = .idle ∨ ∃ queue, cm.work = .bfs queue) (hchan : cm.blocksChan ≠ []) :
    ∃ r, DAGCommitor.run E st cm = some r := by
  unfold DAGCommitor.run
  rcases hwork with hw | ⟨queue, hw⟩ <;> rw [hw]
  · cases hch : cm.blocksChan with
    | nil => exact absurd hch hchan
    | cons b rest => exact ⟨_, rfl⟩
  · cases queue with
    | nil => exact ⟨_, rfl⟩
    | cons b rest =>
      dsimp only
      split <;> exact ⟨_, rfl⟩

/-! ## Steps that can be taken -/

variable (E self) in
/-- The main loop goes on, or waits in `Commit` for room on the channel. -/
theorem exists_main (hidle : c.pc ≠ .idle) :
    (∃ r, main E self c = some r) ∨ chanCap ≤ c.commitor.blocksChan.length := by
  by_cases hreport : ∃ leader view, c.pc = .report leader view
  · obtain ⟨leader, view, hpc⟩ := hreport
    exact Or.inl ⟨_, by simp only [main, hpc]; rfl⟩
  by_cases hgather : ∃ view height i refs, c.pc = .gather view height i refs
  · obtain ⟨view, height, i, refs, hpc⟩ := hgather
    exact Or.inl ⟨_, by simp only [main, hpc]; rfl⟩
  have hno : ∀ leader view, c.pc ≠ .report leader view := fun leader view hpc =>
    hreport ⟨leader, view, hpc⟩
  have hno' : ∀ view height i refs, c.pc ≠ .gather view height i refs :=
    fun view height i refs hpc => hgather ⟨view, height, i, refs, hpc⟩
  rcases Node.exists_stepCoin
    (fun c leader view => decide (E.lowThreshold ≤ getWeakVotes c view leader)) hidle hno hno'
    with ⟨r, hr⟩ | ⟨-, hfull⟩
  · refine Or.inl ⟨r, ?_⟩
    rw [← hr, main]
    split
    · next leader view hpc => exact absurd hpc (hno leader view)
    · next view height i refs hpc => exact absurd hpc (hno' view height i refs)
    · rfl
  · exact Or.inr hfull

variable (E self) in
/-- A goroutine can take its step while there is room for a callback. -/
theorem exists_runJob (hqueue : c.callBackSpb = []) (k : Key) {j : BigJob D}
    (hj : BigSPB.isNext true j = false) : ∃ r, DAGBigSPB.runJob E self c k j = some r := by
  cases j with
  | newPropose v => cases hj
  | callBack =>
    have hroom : c.callBackSpb.length < DAGBigSPB.callBackCap := by
      rw [hqueue]
      decide
    exact ⟨_, if_pos hroom⟩
  | _ => exact ⟨_, rfl⟩

theorem act_task (hc : c.crashed = false) {t : Key × BigJob D} {ts : List (Key × BigJob D)}
    (h : c.tasks = t :: ts) :
    act E self c (.task 0) = DAGBigSPB.runJob E self { c with tasks := ts } t.1 t.2 := by
  simp [act, hc, h]

/-! ## Honest nodes -/

section Honest

variable {w : NodeWorld D (BigJob D)} (hE : E.Honest)
  (hw : (machine E).Reach Machine.anyInput w)
include hE hw

theorem welcome {i : NodeID} (hi : i ∈ E.members) :
    ∀ m ∈ (w.host i).received, m.passes E true = true ∧ m.Sound E true false false := by
  have hsound : ∀ i ∈ (machine E).hosts, ∀ m ∈ (w.host i).received, m.Sound E true false false :=
    hw.received_induction (P := fun _ _ m => Msg.Sound E true false false m)
      (fun _ _ _ _ _ h => h) fun w hw j hj hrec o ho _ m hom =>
        own_sound hj (hw.local j) hrec ho (Out.msg_of_msgTo hom)
  intro m hm
  obtain ⟨j, hj, o, ho, hmsg⟩ := hw.sender hi hm
  have hmade := (tells (hw.local j) o ho m (Out.msg_of_msgTo hmsg)).2
  exact ⟨hmade.passes hE hj true, hsound i hi m hm⟩

theorem filter_received {i : NodeID} (hi : i ∈ E.members) :
    (w.host i).received.filter (Msg.passes E true) = (w.host i).received :=
  List.filter_eq_self.2 fun m hm => (welcome hE hw hi m hm).1

theorem not_crashed {i : NodeID} (hi : i ∈ E.members) : (w.host i).st.crashed = false := by
  refine (robust hE.long).not_crashed hi (Delivered.of_local (hw.local i)) fun x hx => ?_
  obtain ⟨m, hm, rfl⟩ := List.mem_map.1 hx
  exact ⟨m, m.wire_msg, (welcome hE hw hi m hm).2⟩

theorem candid : Candid E dagRules (machine E) w where
  hosts := rfl
  reach := hw
  orderly := orderly hw
  voting := runs.voting (orderly hw) hw
  ballots := ballots E
  tells i := tells (hw.local i)
  follows _ _ _ _ _ _ := ⟨Option.some_ne_none _, fun _ => rfl⟩
  serves i hi := by
    have h := (conducts E).serves_outs (fun _ _ _ _ => takes) (hw.local i)
    rwa [filter_received hE hw hi] at h
  counted i hi := BigCore.counted_of_branches (branches E) (by simp) hE.long (hw.local i)
    fun m hm => (welcome hE hw hi m hm).1

theorem noZeroVote {i : NodeID} (hi : i ∈ E.members) :
    NoZeroVote E ((w.host i).received.filter (Msg.passes E true)) := by
  rw [filter_received hE hw hi]
  intro v hv
  obtain ⟨b, hb⟩ := (candid hE hw).voting.backed_of_received (orderly hw) hw hi hv
  rw [← hb.hash]
  exact hE.nonzero b

omit hE in
theorem ownProposals : (machine E).Reach (OwnProposals E) w := by
  refine hw.guarded (fun w hw i m hnet => ?_) fun _ _ _ _ _ => trivial
  cases m with
  | propose p =>
    intro ha _
    obtain ⟨j, hj, o, ho, hmsg⟩ := hw.sender_inFlight hnet
    have hmsg := Out.msg_of_msgTo hmsg
    have hj : p.author = j := ((orderly hw).signed j hj o ho _ hmsg).1
    rw [← hj, ha] at ho
    exact mem_proposalKeys ho hmsg
  | _ => trivial

end Honest

/-! ## Nodes at rest -/

section Rest

variable {w : NodeWorld D (BigJob D)}

theorem offered_of_key (hw : (machine E).Reach Machine.anyInput w) {i : NodeID} {view : ℤ} {height : ℕ}
    (hk : (view, height) ∈ proposalKeys (w.host i).outs) : ∃ p, Offered w (view, i) height p := by
  obtain ⟨o, ho, p, hmsg, he⟩ := exists_of_mem_proposalKeys hk
  obtain ⟨rfl, rfl⟩ := Prod.mk.inj he
  have ha := (proposal (hw.local i) ho hmsg).author.1
  exact ⟨p, by simp [ha], o, ho, hmsg⟩

theorem key_of_proposed (hw : (machine E).Reach Machine.anyInput w) {i : NodeID} {b : Block D}
    (hb : Proposed w i b) : (b.view, b.height) ∈ proposalKeys (w.host i).outs := by
  obtain ⟨o, ho, p, hmsg, rfl⟩ := hb
  have hp := proposal (hw.local i) ho hmsg
  rw [← hp.view, ← hp.height]
  exact mem_proposalKeys ho hmsg

/-- Who has left a view has proposed a block that comes right after its height-2 blocks. -/
theorem proposed_of_left (hw : (machine E).Reach Machine.anyInput w) {i : NodeID}
    (hb : (w.host i).st.booted = true) {view : ℤ} (h0 : 0 ≤ view) (hlt : view < (w.host i).st.view) :
    ∃ b, Proposed w i b ∧ b.view ≠ 0 ∧ layerBefore b.view b.height = (view, HEIGHT_2) := by
  obtain ⟨o, ho, p, hmsg, he⟩ := exists_of_mem_proposalKeys
    (entered (hw.local i) hb (by omega : 0 ≤ view + 1) hlt)
  have hp := proposal (hw.local i) ho hmsg
  obtain ⟨hv, hh⟩ := Prod.mk.inj he
  rw [hp.view] at hv
  rw [hp.height] at hh
  refine ⟨p.b, ⟨o, ho, p, hmsg, rfl⟩, by omega, ?_⟩
  rw [layerBefore, if_pos hh, hv, add_sub_cancel_right]

theorem both_of_second (hw : (machine E).Reach Machine.anyInput w) {i : NodeID} {view : ℤ}
    (hk : (view, HEIGHT_2) ∈ proposalKeys (w.host i).outs) :
    ∀ height ≤ HEIGHT_2, ∃ p, Offered w (view, i) height p := by
  intro height hh
  rcases height_cases hh with rfl | rfl
  · have hl := hw.local i
    obtain ⟨o, ho, p, hmsg, he⟩ := exists_of_mem_proposalKeys hk
    have h0 : 0 ≤ view := by
      rw [← (Prod.mk.inj he).1]
      exact (proposal hl ho hmsg).nonneg
    have hb : (w.host i).st.booted = true := by
      by_contra hb
      rw [((ordered hl).asleep (by simpa using hb)).1] at hk
      exact absurd hk List.not_mem_nil
    refine offered_of_key hw (entered hl hb h0 ?_)
    rcases (ordered hl).last _ hk with he | hbefore
    · exact (congrArg Prod.fst he).le
    · unfold Before at hbefore
      dsimp only at hbefore
      omega
  · exact offered_of_key hw hk

/-- Node `i` is at rest, and nobody is to be called back. -/
structure Silent (w : NodeWorld D (BigJob D)) (i : NodeID) : Prop extends AtRest w i where
  callBackSpb : (w.host i).st.callBackSpb = []

variable (hE : E.Honest) (hw : (machine E).Reach Machine.anyInput w)
  (hrest : ∀ i ∈ E.live, Silent w i) (hq : E.hightThreshold ≤ E.live.card)
include hE hw hrest hq

theorem le_layerCerts {S : Finset NodeID} {view : ℤ} {height : ℕ} (hh : height ≤ HEIGHT_2)
    (hS : ∀ p ∈ S, p ∈ E.members ∧ (∃ q, Offered w (view, p) height q) ∧
      ∃ q, Offered w (view, p) HEIGHT_1 q) {i : NodeID} (hi : i ∈ E.live) :
    S.card ≤ layerCerts E (w.host i).st (view, height) 0 := by
  rw [← Finset.length_toList]
  refine length_le_layerCerts (Finset.nodup_toList S) fun p hp => ?_
  obtain ⟨hm, hp, h₁⟩ := hS p (Finset.mem_toList.1 hp)
  exact ⟨hm, (candid hE hw).certified (fun i hi => (hrest i hi).toAtRest) hq hi hm hh hp h₁⟩

theorem second_of_view {view : ℤ} (hS : E.hightThreshold ≤
      (E.live.filter fun i => (w.host i).st.view = view).card) {i : NodeID} (hi : i ∈ E.live)
    (hv : (w.host i).st.view = view) : (view, HEIGHT_2) ∈ proposalKeys (w.host i).outs := by
  have hl := hw.local i
  have hm := (Env.mem_live.1 hi).1
  have hcur := current_proposed hl (hrest i hi).booted
  rw [hv] at hcur
  obtain ⟨o, ho, p, hmsg, he⟩ := exists_of_mem_proposalKeys hcur
  have hh : (w.host i).st.height ≤ HEIGHT_2 := by
    rw [← (Prod.mk.inj he).2]
    exact (proposal hl ho hmsg).height_le
  rcases height_cases hh with hh | hh
  · -- all are at height 1 at least, so that the node is due, and nothing is there to wake it
    have hall : ∀ p ∈ E.live.filter fun i => (w.host i).st.view = view,
        p ∈ E.members ∧ (∃ q, Offered w (view, p) HEIGHT_1 q) ∧ ∃ q, Offered w (view, p) HEIGHT_1 q := by
      intro p hp
      obtain ⟨hp, hpv⟩ := Finset.mem_filter.1 hp
      have hk := entered (hw.local p) (hrest p hp).booted (hpv ▸ (ordered (hw.local p)).nonneg) hpv.ge
      exact ⟨(Env.mem_live.1 hp).1, offered_of_key hw hk, offered_of_key hw hk⟩
    have hdue : Due E i (w.host i).st := by
      refine ⟨hh, ?_, ?_⟩
      · have h₁ := (hall i (Finset.mem_filter.2 ⟨hi, hv⟩)).2.1
        rw [hv]
        exact (candid hE hw).certified (fun i hi => (hrest i hi).toAtRest) hq hi hm (Nat.zero_le _)
          h₁ h₁
      · rw [hv]
        exact hS.trans (le_layerCerts hE hw hrest hq (Nat.zero_le _) hall hi)
    cases woken ((ownProposals hw).local i) (noZeroVote hE hw hm) hdue with
    | queued hk _ =>
      rw [(hrest i hi).callBackSpb] at hk
      exact absurd hk List.not_mem_nil
    | sending hk _ =>
      rw [(hrest i hi).tasks] at hk
      exact absurd hk List.not_mem_nil
    | gathering hg _ =>
      rw [(hrest i hi).idle] at hg
      cases hg
  · rwa [hh] at hcur

/-- **A quorum has proposed both blocks** of a view that a quorum has reached. -/
theorem exists_complete {view : ℤ} (h0 : 0 ≤ view) (hS : E.hightThreshold ≤
      (E.live.filter fun i => view ≤ (w.host i).st.view).card) :
    ∃ S, E.hightThreshold ≤ S.card ∧ Complete E w view S := by
  by_cases hahead : ∃ j ∈ E.live, view < (w.host j).st.view
  · -- who has left the view has referred to the second blocks of a quorum
    obtain ⟨j, hj, hlt⟩ := hahead
    obtain ⟨b, hb, hview, hlayer⟩ := proposed_of_left hw (hrest j hj).booted h0 hlt
    obtain ⟨S, hsub, hcard, hrefer⟩ :=
      exists_quorum_of_references hw (Env.mem_live.1 hj).1 hb (Or.inl hview)
    refine ⟨S, hcard, fun a ha => ⟨List.mem_toFinset.1 (hsub ha), both_of_second hw ?_⟩⟩
    obtain ⟨c, hc, hbefore, -⟩ := hrefer a ha
    rw [← hlayer, ← hbefore]
    exact key_of_proposed hw hc
  · have hsame : (E.live.filter fun i => view ≤ (w.host i).st.view) =
        E.live.filter fun i => (w.host i).st.view = view := by
      refine Finset.filter_congr fun i hi => ⟨fun hle => ?_, fun he => he.ge⟩
      exact le_antisymm (not_lt.1 fun hlt => hahead ⟨i, hi, hlt⟩) hle
    rw [hsame] at hS
    refine ⟨_, hS, fun i hi => ?_⟩
    obtain ⟨hi, hv⟩ := Finset.mem_filter.1 hi
    exact ⟨(Env.mem_live.1 hi).1, both_of_second hw (second_of_view hE hw hrest hq hS hi hv)⟩

end Rest

/-! ## Where nothing moves -/

/-- What a node does by itself. That its pool makes a batch does not count. -/
def Toils (_ : BigNode D) (a : Act) : Prop := ∀ txs, a ≠ .makeBatch txs

/-- **The coins of the views have been missed**: a quorum has reached `view` and less than a quorum has left
it. The live nodes that are still there, or in an earlier view, know the leader of the view that they are in
and have the height-2 certificates of a quorum, and there is nothing left to take them on. -/
structure Missed (E : Env D) (w : NodeWorld D (BigJob D)) (view : ℤ) : Prop where
  reached : E.hightThreshold ≤ (E.live.filter fun i => view ≤ (w.host i).st.view).card
  left : (E.live.filter fun i => view < (w.host i).st.view).card < E.hightThreshold
  led : ∀ i ∈ E.live, (w.host i).st.view ≤ view →
    (w.host i).st.eletor.leaders (w.host i).st.view ≠ none
  certified : ∀ i ∈ E.live, (w.host i).st.view ≤ view →
    E.hightThreshold ≤ layerCerts E (w.host i).st ((w.host i).st.view, HEIGHT_2) 0
  silent : ∀ i ∈ E.live, Silent w i

section Stuck

variable {w : NodeWorld D (BigJob D)} (hE : E.Honest) (hw : (machine E).Reach Machine.anyInput w)
include hE hw

theorem missed_of_silent (hq : E.hightThreshold ≤ E.live.card)
    (hrest : ∀ i ∈ E.live, Silent w i) : ∃ view, Missed E w view := by
  obtain ⟨i₀, hi₀, hreached, hleft⟩ := exists_highest E.live (fun i => (w.host i).st.view)
    (Nat.succ_pos _ : 0 < E.hightThreshold) hq
  have hcomplete : ∀ i ∈ E.live, (w.host i).st.view ≤ (w.host i₀).st.view →
      ∃ S, E.hightThreshold ≤ S.card ∧ Complete E w (w.host i).st.view S := by
    intro i hi hle
    refine exists_complete hE hw hrest hq (ordered (hw.local i)).nonneg (hreached.trans ?_)
    refine Finset.card_le_card fun j hj => ?_
    obtain ⟨hj, hjv⟩ := Finset.mem_filter.1 hj
    exact Finset.mem_filter.2 ⟨hj, hle.trans hjv⟩
  refine ⟨(w.host i₀).st.view, hreached, hleft, fun i hi hle => ?_, fun i hi hle => ?_, hrest⟩
  · obtain ⟨S, hS, hall⟩ := hcomplete i hi hle
    exact (candid hE hw).led (fun i hi => (hrest i hi).toAtRest) hq hS hall hE hi
  · obtain ⟨S, hS, hall⟩ := hcomplete i hi hle
    refine hS.trans (le_layerCerts hE hw hrest hq le_rfl (fun p hp => ?_) hi)
    obtain ⟨hm, hboth⟩ := hall p hp
    exact ⟨hm, hboth _ le_rfl, hboth _ (Nat.zero_le _)⟩

theorem silent_of_stuck {i : NodeID} (hi : i ∈ E.live) (hstuck : ¬ CanMove (machine E) Toils w i) :
    Silent w i := by
  obtain ⟨hm, hlive⟩ := Env.mem_live.1 hi
  have hc := not_crashed hE hw hm
  have hact : ∀ a, (∀ txs, a ≠ .makeBatch txs) → act E i (w.host i).st a = none := by
    intro a ha
    by_contra hne
    obtain ⟨r, hr⟩ := Option.ne_none_iff_exists'.1 hne
    exact hstuck (Or.inl ⟨a, r, ha, hr⟩)
  have hbooted : (w.host i).st.booted = true := by
    have h := hact .boot (by simp)
    simp only [act, hc] at h
    by_contra hb
    simp [Node.boot, hb, not_lt.2 hlive] at h
  have hidle : (w.host i).st.pc = .idle := by
    by_contra hidle
    have h := hact .main (by simp)
    simp only [act, hc] at h
    rcases exists_main E i hidle with ⟨r, hr⟩ | hlen
    · simp [hr] at h
    · have hne : (w.host i).st.commitor.blocksChan ≠ [] :=
        List.ne_nil_of_length_pos ((by decide : 0 < chanCap).trans_le hlen)
      obtain ⟨r, hr⟩ := exists_run E (w.host i).st.store (not_walking (hw.local i)) hne
      have h := hact .commitor (by simp)
      simp [act, hc, Node.stepCommitor, hr] at h
  have hready : (w.host i).st.ready = true := by simp [Node.ready, hbooted, hc, hidle]
  have hqueue : (w.host i).st.callBackSpb = [] := by
    have h := hact .callback (by simp)
    simp only [act, hc, callback, hready] at h
    cases hcb : (w.host i).st.callBackSpb with
    | nil => rfl
    | cons k rest => simp [hcb] at h
  have htasks : (w.host i).st.tasks = [] := by
    have h := hact (.task 0) (by simp)
    cases hts : (w.host i).st.tasks with
    | nil => rfl
    | cons t ts =>
      have hno : BigSPB.isNext true t.2 = false :=
        not_next (runs.pool (hw.local i)) (fun k v j hj => by
          rw [List.mem_singleton.1 hj]; rfl) (show t ∈ (w.host i).st.tasks from hts ▸ List.mem_cons_self)
      rw [act_task hc hts] at h
      obtain ⟨r, hr⟩ := exists_runJob E i (c := { (w.host i).st with tasks := ts }) hqueue t.1 hno
      exact absurd (h.symm.trans hr) (Option.some_ne_none r).symm
  exact ⟨⟨hbooted, hidle, htasks, fun m hnet => hstuck (Or.inr ⟨m, _, hnet, if_pos hready⟩)⟩, hqueue⟩

/-- **Where the DAG variant can stop.** In a run of honest nodes of which at most `f` are silent from the
start, no node panics, and some live node can take a step, unless the coins of the views have been missed by
so many that no quorum is left. -/
theorem stops_only_missed (hn : 1 ≤ E.n) (hf : E.faults ≤ E.tolerated) :
    (∀ i ∈ E.live, (w.host i).st.crashed = false) ∧
      ((∃ i ∈ E.live, CanMove (machine E) Toils w i) ∨ ∃ view, Missed E w view) := by
  refine ⟨fun i hi => not_crashed hE hw (Env.mem_live.1 hi).1, ?_⟩
  by_contra hno
  obtain ⟨hmove, hmissed⟩ := not_or.1 hno
  exact hmissed (missed_of_silent hE hw (Env.hightThreshold_le_live hn hf) fun i hi =>
    silent_of_stuck hE hw hi fun h => hmove ⟨i, hi, h⟩)

end Stuck

end DAGBigCore

end S2Pac
