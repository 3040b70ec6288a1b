import S2Pac.BigCore.Agreement
import S2Pac.DAGBigCore.Rounds
import S2Pac.Quorums

/-!
# What a block of the DAG variant stands on

The causal history of a block is what it reaches through its references. Two rules let a node commit a
block of the leader: `LowThreshold()` height-2 blocks of the view refer to its height-1 block, or
`HightThreshold()` nodes have told that they hold a certificate of its height-2 block. A block that is
committed has to be in the history of the blocks that come later.

* `weak_commit_in_history`: for the first rule it is, in every run;
* `speed_commit_in_history`: for the second it is when the nodes that tell of a certificate have not
  already passed the leader by in their search for references (`Prompt`);
* `speed_commit_forgotten`: a run in which they have.
-/

set_option linter.unusedSectionVars false

namespace S2Pac

open Lib BigSPB

variable {D : Type} [DecidableEq D]

namespace DAGBigCore

variable {E : Env D} {self : NodeID}

/-! ## Histories -/

/-- Block `b` refers to block `c`, the one that the proposer of a reference has proposed at the view
and the height of the reference. -/
def RefersTo (w : NodeWorld D (BigJob D)) (b c : Block D) : Prop :=
  ∃ q ∈ b.references, Proposed w q.proposer c ∧ c.view = q.view ∧ c.height = q.height

/-- Block `c` is in the causal history of block `b`. -/
def InHistory (w : NodeWorld D (BigJob D)) (b c : Block D) : Prop :=
  Relation.TransGen (RefersTo w) b c

theorem RefersTo.mono {w w' : NodeWorld D (BigJob D)} (h : Machine.Later w w') {b c : Block D} :
    RefersTo w b c → RefersTo w' b c :=
  fun ⟨q, hq, hc, hrest⟩ => ⟨q, hq, hc.mono h, hrest⟩

section World

variable {G : Machine.Guard NodeID (BigNode D) (Msg D) Act (Event D)} {w : NodeWorld D (BigJob D)}

theorem proposal_of_proposed (hw : (machine E).Reach G w) {j : NodeID} {b : Block D}
    (hb : Proposed w j b) : ∃ p, p.b = b ∧ Proposal E G j (w.host j).received p := by
  obtain ⟨o, ho, p, hm, hpb⟩ := hb
  exact ⟨p, hpb, proposal (hw.local j) ho hm⟩

theorem exists_referred (hw : (machine E).Reach G w) {j : NodeID} (hj : j ∈ E.members) {b : Block D}
    (hb : Proposed w j b) {q : BlockQC D} (hq : q ∈ b.references) :
    (q.view, q.height) = layerBefore b.view b.height ∧ q.proposer ∈ E.members ∧
      ∃ c, Proposed w q.proposer c ∧ (c.view, c.height) = layerBefore b.view b.height ∧
        RefersTo w b c := by
  obtain ⟨p, rfl, hp⟩ := proposal_of_proposed hw hb
  rcases hp.references with ⟨-, -, hnil⟩ | ⟨-, hg⟩
  · exact absurd (hnil ▸ hq) List.not_mem_nil
  · obtain ⟨hnames, c, hc⟩ := exists_backed hw hj hg hq
    rw [hp.view, hp.height] at hc hnames
    refine ⟨Prod.ext hnames.view_eq hnames.height_eq, hc.host, c, hc.proposed,
      Prod.ext hc.view_eq hc.height_eq, q, hq, hc.proposed, ?_, ?_⟩
    · exact hc.view_eq.trans hnames.view_eq.symm
    · exact hc.height_eq.trans hnames.height_eq.symm

/-- **A block after the first layer refers to blocks of `HightThreshold()` proposers.** -/
theorem exists_quorum_of_references (hw : (machine E).Reach G w) {j : NodeID} (hj : j ∈ E.members)
    {b : Block D} (hb : Proposed w j b) (hlater : b.view ≠ 0 ∨ b.height ≠ HEIGHT_1) :
    ∃ S ⊆ E.members.toFinset, E.hightThreshold ≤ S.card ∧ ∀ i ∈ S, ∃ c, Proposed w i c ∧
      (c.view, c.height) = layerBefore b.view b.height ∧ RefersTo w b c := by
  obtain ⟨p, rfl, hp⟩ := proposal_of_proposed hw hb
  rcases hp.references with ⟨hview, hheight, -⟩ | ⟨hlen, hg⟩
  · rw [← hp.view, ← hp.height] at hlater
    exact absurd hlater (by simp [hview, hheight])
  · refine ⟨(p.b.references.map BlockQC.proposer).toFinset, fun i hi => ?_, ?_, fun i hi => ?_⟩
    · obtain ⟨q, hq, rfl⟩ := List.mem_map.1 (List.mem_toFinset.1 hi)
      exact List.mem_toFinset.2 (exists_referred hw hj hb hq).2.1
    · have hnodup : (p.b.references.map BlockQC.proposer).Nodup :=
        List.Pairwise.imp (fun h => ne_of_lt h) hg.sorted
      rw [List.toFinset_card_of_nodup hnodup, List.length_map]
      exact hlen
    · obtain ⟨q, hq, rfl⟩ := List.mem_map.1 (List.mem_toFinset.1 hi)
      exact (exists_referred hw hj hb hq).2.2

end World


/-! ## Weak votes -/

/-- The certificate is one of a block of `node` in `view`. -/
def ofNode (view : ℤ) (node : NodeID) (q : BlockQC D) : Bool :=
  decide (q.view = view ∧ q.proposer = node)

/-- A height-2 proposal that refers to a block of `node` in `view`. -/
@[simp] def endorses (view : ℤ) (node : NodeID) : Msg D → Bool
  | .propose p => decide (p.height = HEIGHT_2) && p.b.references.any (ofNode view node)
  | _ => false

theorem addWeakVotes_foldl (refs : List (BlockQC D)) (weakVotes : ℤ → NodeID → ℕ) (view : ℤ)
    (node : NodeID) :
    refs.foldl (fun w qc => addWeakVotes w qc.view qc.proposer) weakVotes view node =
      weakVotes view node + refs.countP (ofNode view node) := by
  induction refs generalizing weakVotes with
  | nil => rfl
  | cons q refs ih =>
    rw [List.foldl_cons, ih, List.countP_cons]
    have hadd : addWeakVotes weakVotes q.view q.proposer view node =
        weakVotes view node + if ofNode view node q = true then 1 else 0 := by
      unfold addWeakVotes ofNode
      by_cases hview : view = q.view
      · subst hview
        rw [Function.update_self]
        by_cases hnode : node = q.proposer
        · subst hnode
          simp
        · rw [Function.update_of_ne hnode]
          simp [Ne.symm hnode]
      · rw [Function.update_of_ne hview]
        simp [Ne.symm hview]
    omega

/-- **The weak votes that a node has counted** are at most the height-2 proposals it has received that
refer to the block, if none refers to it twice. -/
theorem weakVotes_le {G : Machine.Guard NodeID (BigNode D) (Msg D) Act (Event D)}
    {h : NodeHost D (BigJob D)} (hl : (machine E).Local G self h) {view : ℤ} {node : NodeID}
    (hone : ∀ p, Msg.propose p ∈ h.received → p.b.references.countP (ofNode view node) ≤ 1) :
    h.st.weakVotes view node ≤ h.received.countP (endorses view node) := by
  revert hone
  refine induction (P := fun h : NodeHost D (BigJob D) =>
    (∀ p, Msg.propose p ∈ h.received → p.b.references.countP (ofNode view node) ≤ 1) →
      h.st.weakVotes view node ≤ h.received.countP (endorses view node)) ?_ ?_ hl
  · exact fun _ => Nat.zero_le _
  · intro h x c' os _ ih _ _ hm hone
    have hold := ih fun p hp => hone p (List.mem_append_left _ hp)
    have hsame : c'.weakVotes = h.st.weakVotes →
        c'.weakVotes view node ≤ (h.received ++ x.heard).countP (endorses view node) := by
      intro he
      rw [he, List.countP_append]
      exact hold.trans (Nat.le_add_right _ _)
    cases hm with
    | aside hs _ => exact hsame hs.weakVotes
    | @weak p _ hs =>
      have hp := hone p (by simp)
      have hw : c'.weakVotes = weakVotesOf h.st.weakVotes p := hs.weakVotes
      dsimp only [Input.heard]
      rw [hw, List.countP_append, List.countP_singleton, endorses]
      unfold weakVotesOf
      split
      · next hh =>
        rw [addWeakVotes_foldl]
        by_cases hany : p.b.references.any (ofNode view node) = true
        · simp only [hh, hany, decide_true, Bool.and_self, if_true]
          omega
        · have hzero : p.b.references.countP (ofNode view node) = 0 := by
            rw [List.countP_eq_zero]
            exact fun q hq hof => hany (List.any_eq_true.2 ⟨q, hq, hof⟩)
          omega
      · exact hold.trans (Nat.le_add_right _ _)
    | process hs => exact hsame (by cases hs <;> rfl)
    | leave _ => exact hsame (by simp)
    | advance _ _ _ _ hs => exact hsame (by simp [hs.weakVotes])
    | _ => exact hsame rfl

section World

variable {G : Machine.Guard NodeID (BigNode D) (Msg D) Act (Event D)} {w : NodeWorld D (BigJob D)}

theorem countP_ofNode_le_one (hw : (machine E).Reach G w) {j : NodeID} {b : Block D}
    (hb : Proposed w j b) (view : ℤ) (node : NodeID) :
    b.references.countP (ofNode view node) ≤ 1 := by
  obtain ⟨p, rfl, hp⟩ := proposal_of_proposed hw hb
  rcases hp.references with ⟨-, -, hnil⟩ | ⟨-, hg⟩
  · rw [hnil]
    exact Nat.zero_le _
  · have hnodup : (p.b.references.map BlockQC.proposer).Nodup :=
      List.Pairwise.imp (fun h => ne_of_lt h) hg.sorted
    calc p.b.references.countP (ofNode view node)
        ≤ p.b.references.countP fun q => decide (q.proposer = node) :=
          List.countP_mono_left fun q _ hq => by simpa using (of_decide_eq_true hq).2
      _ = (p.b.references.map BlockQC.proposer).count node := by
          rw [List.count_eq_countP, List.countP_map]
          rfl
      _ ≤ 1 := List.nodup_iff_count_le_one.1 hnodup node

theorem isProposal_of_endorses (hw : (machine E).Reach G w) {j : NodeID} (hj : j ∈ E.members)
    {o : NodeOut D} (ho : o ∈ (w.host j).outs) {view : ℤ} {node : NodeID}
    (hc : o.carries (endorses view node) = true) :
    ∃ p, o.msg = some (.propose p) ∧ p.author = j ∧ p.view = view ∧ p.height = HEIGHT_2 ∧
      p.b.view = view ∧ p.b.height = HEIGHT_2 ∧ node ∈ E.members ∧ ∃ c, Proposed w node c ∧
        c.view = view ∧ c.height = HEIGHT_1 ∧ RefersTo w p.b c := by
  obtain ⟨m, hm, hP⟩ := Out.carries_iff.1 hc
  cases m with
  | propose p =>
    simp only [endorses, Bool.and_eq_true, decide_eq_true_eq] at hP
    obtain ⟨hh, hany⟩ := hP
    obtain ⟨q, hq, hof⟩ := List.any_eq_true.1 hany
    obtain ⟨hview, hnode⟩ := of_decide_eq_true hof
    have hp := proposal (hw.local j) ho hm
    obtain ⟨hlayer, hmem, c, hc, hcl, hrefers⟩ := exists_referred hw hj ⟨o, ho, p, hm, rfl⟩ hq
    have hbefore : layerBefore p.b.view p.b.height = (p.view, HEIGHT_1) := by
      rw [← hp.view, ← hp.height, hh]
      rfl
    rw [hbefore] at hlayer hcl
    obtain ⟨hqv, -⟩ := Prod.mk.inj hlayer
    obtain ⟨hcv, hch⟩ := Prod.mk.inj hcl
    have hv : p.view = view := hqv.symm.trans hview
    exact ⟨p, hm, hp.author.1, hv, hh, hp.view ▸ hv, hp.height ▸ hh, hnode ▸ hmem, c, hnode ▸ hc,
      hcv.trans hv, hch, hrefers⟩
  | _ => simp at hP

/-- **The weak votes at a node come from as many nodes**, each of which has proposed a height-2 block
that refers to the height-1 block of `node`. -/
theorem exists_endorsers (hw : (machine E).Reach G w) {i : NodeID} (hi : i ∈ E.members) {view : ℤ}
    {node : NodeID} {k : ℕ} (hk : k ≤ getWeakVotes (w.host i).st view node) :
    ∃ S ⊆ E.members.toFinset, k ≤ S.card ∧ ∀ j ∈ S, ∃ b, Proposed w j b ∧ b.view = view ∧
      b.height = HEIGHT_2 ∧ node ∈ E.members ∧ ∃ c, Proposed w node c ∧ c.view = view ∧
        c.height = HEIGHT_1 ∧ RefersTo w b c := by
  have hcount : k ≤ (w.host i).received.countP (endorses view node) := by
    refine hk.trans (weakVotes_le (hw.local i) fun p hp => ?_)
    exact countP_ofNode_le_one hw ((orderly hw).proposed_of_received hw hi hp).2 view node
  have hsent : ∀ j ∈ E.members, ∀ o ∈ (w.host j).outs, ∀ m, o.msg = some m →
      endorses view node m = true → m.author = j := by
    intro j hj o ho m hm hP
    obtain ⟨p, hm', ha, -⟩ := isProposal_of_endorses hw hj ho (Out.carries_iff.2 ⟨m, hm, hP⟩)
    cases hm.symm.trans hm'
    exact ha
  have honce : ∀ j ∈ E.members, (w.host j).outs.countP (Out.carries (endorses view node)) ≤ 1 := by
    intro j hj
    refine le_trans (List.countP_mono_left fun o ho hc => ?_)
      (proposal_once (hw.local j) view HEIGHT_2)
    obtain ⟨p, hm, -, hv, hh, -⟩ := isProposal_of_endorses hw hj ho hc
    exact Out.carries_iff.2 ⟨_, hm, by simp [hv, hh]⟩
  obtain ⟨S, hS, hcard, hauth⟩ := Machine.Reach.exists_authors hw hi hsent honce hcount
  refine ⟨S, hS, hcard, fun j hj => ?_⟩
  obtain ⟨m, hm, hP, rfl⟩ := hauth j hj
  -- the endorsement was sent, and by its author
  obtain ⟨j, hj, o, ho, hto⟩ := Machine.Reach.sender hw hi hm
  have hmsg := Out.msg_of_msgTo hto
  obtain ⟨p, hm', ha, -, -, hbv, hbh, hc⟩ :=
    isProposal_of_endorses hw hj ho (Out.carries_iff.2 ⟨m, hmsg, hP⟩)
  cases hmsg.symm.trans hm'
  have hb : Proposed w j p.b := ⟨o, ho, p, hmsg, rfl⟩
  rw [← ha] at hb
  exact ⟨p.b, hb, hbv, hbh, hc⟩

/-- When a quorum of nodes refers to a block, so does the layer after it, by way of them. -/
theorem inHistory_of_quorum (hw : (machine E).Reach G w) {j : NodeID} (hj : j ∈ E.members)
    {b c : Block D} (hb : Proposed w j b) (hlater : b.view ≠ 0 ∨ b.height ≠ HEIGHT_1)
    {S : Finset NodeID} (hS : S ⊆ E.members.toFinset) (hcard : E.n < E.hightThreshold + S.card)
    (hrefer : ∀ i ∈ S, ∀ a, Proposed w i a → (a.view, a.height) = layerBefore b.view b.height →
      RefersTo w a c) : InHistory w b c := by
  obtain ⟨T, hT, hTcard, hTrefer⟩ := exists_quorum_of_references hw hj hb hlater
  have hmeet := E.card_le_card_inter hT hS
  obtain ⟨i, hi⟩ : (T ∩ S).Nonempty := Finset.card_pos.1 (by omega)
  obtain ⟨hiT, hiS⟩ := Finset.mem_inter.1 hi
  obtain ⟨a, ha, hal, hba⟩ := hTrefer i hiT
  exact Relation.TransGen.tail (Relation.TransGen.single hba) (hrefer i hiS a ha hal)

/-- **What is in the history of the height-1 blocks of a view is in the history of all later
blocks.** -/
theorem inHistory_of_view (hw : (machine E).Reach G w) {view : ℤ} (hview : 0 < view) {c : Block D}
    (hfirst : ∀ j ∈ E.members, ∀ b, Proposed w j b → b.view = view → b.height = HEIGHT_1 →
      InHistory w b c) {j : NodeID} (hj : j ∈ E.members) {b : Block D} (hb : Proposed w j b)
    (hle : view ≤ b.view) : InHistory w b c := by
  -- induction on the number of layers between the block and the first one of the view
  induction hm : (2 * (b.view - view) + b.height).toNat using Nat.strong_induction_on
    generalizing j b with
  | _ m ih =>
    by_cases hbase : b.view = view ∧ b.height = HEIGHT_1
    · exact hfirst j hj b hb hbase.1 hbase.2
    · obtain ⟨S, hS, hcard, hrefer⟩ :=
        exists_quorum_of_references hw hj hb (Or.inl (by omega))
      have hpos : 0 < E.hightThreshold := Nat.succ_pos _
      obtain ⟨i, hi⟩ : S.Nonempty := Finset.card_pos.1 (by omega)
      obtain ⟨a, ha, hal, hba⟩ := hrefer i hi
      have hlayer : view ≤ a.view ∧
          (2 * (a.view - view) + a.height).toNat < (2 * (b.view - view) + b.height).toNat := by
        unfold layerBefore at hal
        split at hal
        · next hh =>
          obtain ⟨hav, hah⟩ := Prod.mk.inj hal
          rw [hah, hav, hh]
          simp only [hh, and_true] at hbase
          refine ⟨by omega, ?_⟩
          simp only [HEIGHT_1, HEIGHT_2]
          omega
        · next hh =>
          obtain ⟨hav, hah⟩ := Prod.mk.inj hal
          rw [hah, hav]
          simp only [HEIGHT_1] at hh ⊢
          omega
      exact Relation.TransGen.head hba (ih _ (hm ▸ hlayer.2) (List.mem_toFinset.1 (hS hi)) ha
        hlayer.1 rfl)

end World

end DAGBigCore

open DAGBigCore in
/-- **A block that is committed by weak votes is in the history of every block of a later view.** -/
theorem weak_commit_in_history {E : Env D} (hn : E.n = 3 * E.tolerated + 1)
    {w w' : NodeWorld D (BigJob D)} (hw : (DAGBigCore.machine E).Reach Machine.anyInput w)
    (hw' : (DAGBigCore.machine E).Steps Machine.anyInput w w') {i leader : NodeID} {view : ℤ}
    (hi : i ∈ E.members) (hweak : E.lowThreshold ≤ getWeakVotes (w.host i).st view leader)
    {j : NodeID} (hj : j ∈ E.members) {b : Block D} (hb : Proposed w' j b) (hlt : view < b.view) :
    ∃ c, Proposed w' leader c ∧ c.view = view ∧ c.height = HEIGHT_1 ∧ InHistory w' b c := by
  have hreach : (DAGBigCore.machine E).Reach Machine.anyInput w' := hw.trans hw'
  have hlater : Machine.Later w w' := Machine.Steps.later hw'
  obtain ⟨S, hS, hcard, hendorse⟩ := exists_endorsers hw hi hweak
  obtain ⟨i₀, hi₀⟩ : S.Nonempty := Finset.card_pos.1 (lt_of_lt_of_le (Nat.succ_pos _) hcard)
  obtain ⟨b₀, hb₀, hb₀v, -, hleader, c, hc, hcv, hch, -⟩ := hendorse i₀ hi₀
  have hview : 0 ≤ view := by
    obtain ⟨p, rfl, hp⟩ := proposal_of_proposed hw hb₀
    rw [← hb₀v, ← hp.view]
    exact hp.nonneg
  refine ⟨c, hc.mono hlater, hcv, hch, ?_⟩
  refine inHistory_of_view hreach (Int.lt_add_one_of_le hview) (fun j hj b hb hbv hbh => ?_) hj hb hlt
  have hbefore : layerBefore b.view b.height = (view, HEIGHT_2) := by
    rw [hbv, hbh, layerBefore, if_pos rfl, Int.add_sub_cancel]
  refine inHistory_of_quorum hreach hj hb (Or.inl (by omega)) hS ?_ fun i hi a ha hal => ?_
  · rw [E.lowThreshold_eq] at hcard
    rw [E.hightThreshold_eq]
    omega
  · -- all of them refer to the one height-1 block of the leader
    obtain ⟨a', ha', hav, hah, -, c', hc', hcv', hch', hac⟩ := hendorse i hi
    obtain ⟨hv, hh⟩ := Prod.mk.inj (hal.trans hbefore)
    obtain rfl : a = a' := (orderly hreach).block_unique (List.mem_toFinset.1 (hS hi)) ha
      (ha'.mono hlater) (hv.trans hav.symm) (hh.trans hah.symm)
    obtain rfl : c' = c :=
      (orderly hw).block_unique hleader hc' hc (hcv'.trans hcv.symm) (hch'.trans hch.symm)
    exact hac.mono hlater

namespace DAGBigCore

variable {E : Env D} {self : NodeID}

/-! ## Certificates and references -/

section Local

variable {G : Machine.Guard NodeID (BigNode D) (Msg D) Act (Event D)} {h : NodeHost D (BigJob D)}

/-- A certificate appears in the step of a goroutine that completes a quorum. -/
theorem task_of_certifies {x : Input (Msg D) Act} {c' : BigNode D} {l : List (Msg D)}
    {os os' : List (NodeOut D)} (hr : (machine E).input self h x = some (⟨c', l, os'⟩, os)) {k : Key}
    {height : ℕ} (hn : (h.st.spbInstances k).blockQcs height = none)
    (hs : (c'.spbInstances k).blockQcs height ≠ none) :
    ∃ i j, x = .act (.task i) ∧ h.st.tasks[i]? = some (k, j) ∧ toCertify height j = true := by
  have hsame : c'.spbInstances ≠ h.st.spbInstances := fun he => hs (he ▸ hn)
  cases x with
  | recv m =>
    obtain ⟨⟨s, o⟩, hrecv, he⟩ := Option.map_eq_some_iff.1 hr
    cases he
    exact absurd (recv_frame hrecv).spb hsame
  | act a =>
    obtain ⟨⟨s, o⟩, hact, he⟩ := Option.map_eq_some_iff.1 hr
    cases he
    cases pool_act hact with
    | other hf => exact absurd hf.spb hsame
    | @task i k' j s' js ha hi hstep hspb _ =>
      dsimp only at hspb hstep
      rw [hspb] at hs
      by_cases hk : k = k'
      · subst hk
        rw [Function.update_self] at hs
        exact ⟨i, j, congrArg _ ha, hi, JobStep.certifies hstep hn hs⟩
      · rw [Function.update_of_ne hk] at hs
        exact absurd hn hs

/-- The node has passed by the instance of `leader` in its search for references to `view`. -/
def PassedBy (view : ℤ) (leader : NodeID) (c : BigNode D) : Prop :=
  view < c.view ∨
    match c.pc with
    | .gather view' height i _ => view' = view + 1 ∧ height = HEIGHT_1 ∧ leader < (i : ℤ)
    | _ => False

instance (view : ℤ) (leader : NodeID) (c : BigNode D) : Decidable (PassedBy view leader c) := by
  unfold PassedBy
  split <;> infer_instance

/-- **The runs in which nodes certify the leader's height-2 block in time.** The certificate of a
height-2 block, and with it the speed vote, may be made at any time after; here it is made while the
node has still to ask for it in its search for references. -/
def Prompt (view : ℤ) (leader : NodeID) :
    Machine.Guard NodeID (BigNode D) (Msg D) Act (Event D) :=
  fun _ h x =>
    match x with
    | .act (.task i) => ∀ t ∈ h.st.tasks[i]?, t.1 = (view, leader) →
        toCertify HEIGHT_2 t.2 = true → ¬ PassedBy view leader h.st
    | _ => True

instance (view : ℤ) (leader i : NodeID) (h : NodeHost D (BigJob D)) (x : Input (Msg D) Act) :
    Decidable (Prompt view leader i h x) :=
  match x with
  | .act (.task _) => by unfold Prompt; infer_instance
  | .recv _ | .act .boot | .act .main | .act .callback | .act .commitor | .act (.makeBatch _) =>
    instDecidableTrue

/-- The references of a node to `view` have the height-2 block of `leader` among them. -/
structure Keeps (view : ℤ) (leader : NodeID) (h : NodeHost D (BigJob D)) : Prop where
  gathered : ∀ i refs, h.st.pc = .gather (view + 1) HEIGHT_1 i refs → leader < (i : ℤ) →
    ∃ q ∈ refs, q.Names view HEIGHT_2 leader
  proposed : ∀ o ∈ h.outs, ∀ p, o.msg = some (.propose p) → p.view = view + 1 →
    p.height = HEIGHT_1 → ∃ q ∈ p.b.references, q.Names view HEIGHT_2 leader

/-- A node that has not passed by the leader has no references to the view yet. -/
theorem keeps_of_not_passedBy (ho : Ordered h) {view : ℤ} {leader : NodeID}
    (hp : ¬ PassedBy view leader h.st) : Keeps view leader h := by
  unfold PassedBy at hp
  rw [not_or] at hp
  refine ⟨fun i refs hpc hlt => ?_, fun o hom p hm hv hh => ?_⟩
  · rw [hpc] at hp
    exact absurd ⟨rfl, rfl, hlt⟩ hp.2
  · rcases ho.last _ (mem_proposalKeys hom hm) with he | hb
    · have := (Prod.mk.inj he).1
      omega
    · unfold Before at hb
      dsimp only at hb
      omega

theorem Keeps.of_quiet {c' : BigNode D} {l : List (Msg D)} {os : List (NodeOut D)} {view : ℤ}
    {leader : NodeID} (hk : Keeps view leader h) (hos : proposalKeys os = [])
    (hpc : ∀ i refs, c'.pc = .gather (view + 1) HEIGHT_1 i refs → leader < (i : ℤ) →
      ∃ q ∈ refs, q.Names view HEIGHT_2 leader) : Keeps view leader ⟨c', l, h.outs ++ os⟩ where
  gathered := hpc
  proposed o ho p hm := by
    rcases List.mem_append.1 ho with hold | hnew
    · exact hk.proposed o hold p hm
    · exact absurd (hos ▸ mem_proposalKeys hnew hm) List.not_mem_nil

theorem Keeps.advanceView {c₀ : BigNode D} {l : List (Msg D)} {view : ℤ} {leader : NodeID}
    (hk : Keeps view leader h) (hleader : 0 ≤ leader) (view' : ℤ) (height : ℕ) :
    Keeps view leader ⟨advanceView c₀ view' height, l, h.outs ++ []⟩ := by
  refine hk.of_quiet rfl fun i refs hpc hlt => ?_
  rcases advanceView_cases c₀ view' height with ⟨-, -, he⟩ | he <;> rw [he] at hpc
  · obtain ⟨-, -, rfl, -⟩ := Pc.gather.inj hpc
    exact absurd hlt (not_lt.2 hleader)
  · cases hpc

/-- **In a prompt run the references of a node that holds the leader's certificate have it among
them.** -/
theorem keeps {view : ℤ} {leader : NodeID} (hl : (machine E).Local (Prompt view leader) self h)
    (hview : 0 ≤ view) (hleader : leader ∈ E.members)
    (hcert : (h.st.spbInstances (view, leader)).blockQcs HEIGHT_2 ≠ none) : Keeps view leader h := by
  obtain ⟨hnonneg, hlt⟩ := E.mem_members.1 hleader
  revert hcert
  refine induction (P := fun h : NodeHost D (BigJob D) =>
    (h.st.spbInstances (view, leader)).blockQcs HEIGHT_2 ≠ none → Keeps view leader h) ?_ ?_ hl
  · exact fun hcert => absurd rfl hcert
  · intro h x c' os hl ih hg hr hm hcert
    -- before the step there are no references to the view yet, or the leader's is among them
    have hk : Keeps view leader h := by
      by_cases hn : (h.st.spbInstances (view, leader)).blockQcs HEIGHT_2 = none
      · obtain ⟨i, j, rfl, hi, hj⟩ := task_of_certifies hr hn hcert
        exact keeps_of_not_passedBy (ordered hl) (hg (_, j) hi rfl hj)
      · exact ih hn
    cases hm with
    | aside hs hq => exact hk.of_quiet (proposalKeys_quiet hq) (hs.pc ▸ hk.gathered)
    | boot batch hb =>
      obtain ⟨-, hpc, hv, -⟩ := (ordered hl).asleep hb
      refine ⟨fun _ _ h => (nomatch hpc.symm.trans h), fun o ho p hp hpv _ => ?_⟩
      rcases List.mem_append.1 ho with hold | hnew
      · exact hk.proposed o hold p hp hpv ‹_›
      · rw [List.mem_singleton.1 hnew] at hp
        cases hp
        have hpv : h.st.view = view + 1 := hpv
        omega
    | weak hs => exact hk.of_quiet rfl (hs.pc ▸ hk.gathered)
    | shares _ _ => exact hk.of_quiet rfl hk.gathered
    | elected _ _ _ _ => exact hk.of_quiet rfl fun _ _ h => nomatch h
    | process hs =>
      refine hk.of_quiet (proposalKeys_coinStep hs) fun _ _ h => ?_
      cases hs <;> cases h
    | leave _ => exact hk.advanceView hnonneg _ _
    | advance view' height _ _ _ => exact hk.advanceView hnonneg view' height
    | @ask view' height i refs hpc hi =>
      refine hk.of_quiet rfl fun i' refs' hp hlt' => ?_
      obtain ⟨rfl, rfl, rfl, rfl⟩ := Pc.gather.inj hp
      by_cases hil : leader < (i : ℤ)
      · obtain ⟨q, hq, hnames⟩ := hk.gathered i refs hpc hil
        exact ⟨q, List.mem_append_left _ hq, hnames⟩
      · -- the leader's instance is asked, and has the certificate
        have hil : (i : ℤ) = leader := by
          push_cast at hlt'
          exact Int.le_antisymm (not_lt.1 hil) (Int.lt_add_one_iff.1 hlt')
        obtain ⟨q, hq⟩ := Option.ne_none_iff_exists'.1 hcert
        refine ⟨q, List.mem_append_right _ ?_, runs.names hl hq⟩
        have hlayer : layerBefore (view + 1) HEIGHT_1 = (view, HEIGHT_2) := by
          rw [layerBefore, if_pos rfl, Int.add_sub_cancel]
        rw [hlayer, hil]
        exact Option.mem_toList.2 hq
    | @propose view' height i refs batch _ hpc hi _ =>
      refine ⟨fun _ _ h => (nomatch h), fun o ho p hp hpv hph => ?_⟩
      rcases List.mem_append.1 ho with hold | hnew
      · exact hk.proposed o hold p hp hpv hph
      · rw [List.mem_singleton.1 hnew] at hp
        cases hp
        have hpv : view' = view + 1 := hpv
        have hph : height = HEIGHT_1 := hph
        subst hpv hph
        exact hk.gathered i refs hpc (lt_of_lt_of_le hlt (Int.ofNat_le.2 hi))
    | few _ _ _ => exact hk.of_quiet rfl fun _ _ h => nomatch h

/-! ## What a node commits -/

theorem store_source (hl : (machine E).Local G self h) {d : D} {b : Block D}
    (hb : getBlock h.st.store d = some b) :
    b.hash E = d ∧ ∃ p, Msg.propose p ∈ h.received ∧ p.b = b := by
  revert d b
  refine induction (P := fun h : NodeHost D (BigJob D) => ∀ {d b}, getBlock h.st.store d = some b →
    b.hash E = d ∧ ∃ p, Msg.propose p ∈ h.received ∧ p.b = b) ?_ ?_ hl
  · intro d b hb
    simp [Node.new, getBlock] at hb
  · intro h x c' os _ ih _ _ hm d b hb
    have old : getBlock h.st.store d = some b →
        b.hash E = d ∧ ∃ p, Msg.propose p ∈ h.received ++ x.heard ∧ p.b = b := by
      intro hb
      obtain ⟨hd, p, hp, hpb⟩ := ih hb
      exact ⟨hd, p, List.mem_append_left _ hp, hpb⟩
    dsimp only at hb
    cases hm with
    | aside hs _ => exact old (hs.store ▸ hb)
    | @weak p _ hs =>
      have hst : c'.store = storeBlock E h.st.store p.b := hs.store
      rw [hst] at hb
      rcases getBlock_storeBlock hb with ⟨rfl, rfl⟩ | hb
      · exact ⟨rfl, p, by simp, rfl⟩
      · exact old hb
    | process hs => cases hs <;> exact old hb
    | leave _ => exact old (by simpa using hb)
    | advance _ _ _ _ hs => exact old (by simpa [hs.store] using hb)
    | _ => exact old hb

/-- What holds of a block that is handed to the commitor because of `SpeedCert()`. -/
structure Speeded (E : Env D) (h : NodeHost D (BigJob D)) (leader : NodeID) (view : ℤ)
    (b : Block D) : Prop where
  cert : (h.st.spbInstances (view, leader)).speedCert = true
  stored : ∃ p, Msg.propose p ∈ h.received ∧ p.b = b
  recorded : Turns.Recorded E h.received (view, leader) HEIGHT_2 (b.hash E)

theorem Speeded.mono {h h' : NodeHost D (BigJob D)} (hh : Turns.Knows h h') {leader : NodeID}
    {view : ℤ} {b : Block D} (hs : Speeded E h leader view b) : Speeded E h' leader view b where
  cert := (hh.grows _).speedCert hs.cert
  stored := let ⟨p, hp, hb⟩ := hs.stored; ⟨p, hh.received.subset hp, hb⟩
  recorded := hs.recorded.mono hh.received

theorem knows_of_move {x : Input (Msg D) Act} {c' : BigNode D} {os : List (NodeOut D)}
    (hm : Move E self h.st x c' os) :
    Turns.Knows h ⟨c', h.received ++ x.heard, h.outs ++ os⟩ := by
  refine ⟨List.prefix_append _ _, fun k => ?_⟩
  cases hm with
  | aside hs _ => exact hs.grows k
  | weak hs => exact hs.grows k
  | process hs => cases hs <;> exact SPB.Grows.refl _
  | leave _ => simpa using SPB.Grows.refl _
  | advance _ _ _ _ hs => simpa using hs.grows k
  | _ => exact SPB.Grows.refl _

theorem handed_of_move {x : Input (Msg D) Act} {c' : BigNode D} {os : List (NodeOut D)}
    (hm : Move E self h.st x c' os) {leader : NodeID} {view : ℤ} {height : ℕ} {b : Block D}
    (ho : Out.event (.handed leader view height b) ∈ os) :
    h.st.pc = .commit leader view height b := by
  cases hm with
  | aside _ hq =>
    obtain ⟨_, he⟩ := hq _ ho
    cases he
  | boot _ _ => exact nomatch List.mem_singleton.1 ho
  | propose _ _ _ _ => exact nomatch List.mem_singleton.1 ho
  | process hs =>
    cases hs with
    | handed hpc _ =>
      cases List.mem_singleton.1 ho
      exact hpc
    | _ => exact absurd ho List.not_mem_nil
  | _ => exact absurd ho List.not_mem_nil

/-- What holds while `processCoin` fetches and commits a height-2 block. -/
def SpeedPc (E : Env D) (h : NodeHost D (BigJob D)) : Pc D → Prop
  | .fetch leader view height => height = HEIGHT_2 →
      (h.st.spbInstances (view, leader)).speedCert = true
  | .commit leader view height b => height = HEIGHT_2 → Speeded E h leader view b
  | _ => True

theorem SpeedPc.mono {h h' : NodeHost D (BigJob D)} (hh : Turns.Knows h h') {pc : Pc D}
    (hs : SpeedPc E h pc) : SpeedPc E h' pc := by
  cases pc with
  | fetch leader view height => exact fun he => (hh.grows _).speedCert (hs he)
  | commit leader view height b => exact fun he => (hs he).mono hh
  | _ => trivial

theorem SpeedPc.advanceView (c : BigNode D) (view : ℤ) (height : ℕ) :
    SpeedPc E h (advanceView c view height).pc := by
  rcases advanceView_cases c view height with ⟨-, -, he⟩ | he <;> rw [he] <;> trivial

/-- **What a node commits at height 2** it commits because of `SpeedCert()`. -/
theorem speeded (hl : (machine E).Local G self h) :
    SpeedPc E h h.st.pc ∧ ∀ leader view b, Out.event (.handed leader view HEIGHT_2 b) ∈ h.outs →
      Speeded E h leader view b := by
  refine induction (P := fun h : NodeHost D (BigJob D) => SpeedPc E h h.st.pc ∧
    ∀ leader view b, Out.event (.handed leader view HEIGHT_2 b) ∈ h.outs →
      Speeded E h leader view b) ?_ ?_ hl
  · exact ⟨trivial, fun _ _ _ h => absurd h List.not_mem_nil⟩
  · rintro h x c' os hl ⟨hpc, hout⟩ _ _ hm
    have hk := knows_of_move hm
    refine ⟨?_, fun leader view b ho => ?_⟩
    · have hsame : c'.pc = h.st.pc → SpeedPc E ⟨c', h.received ++ x.heard, h.outs ++ os⟩ c'.pc :=
        fun he => he ▸ hpc.mono hk
      cases hm with
      | aside hs _ => exact hsame hs.pc
      | boot _ _ => exact hsame rfl
      | weak hs => exact hsame hs.pc
      | shares _ _ => exact hsame rfl
      | process hs =>
        cases hs with
        | speed _ hs => exact fun _ => hs
        | second _ _ => exact fun h => nomatch h
        | found hp hb =>
          rw [hp] at hpc
          obtain ⟨hd, hstored⟩ := store_source hl hb
          rintro rfl
          refine Speeded.mono hk ⟨hpc rfl, hstored, ?_⟩
          rw [hd]
          exact (runs.held hl _).second
        | _ => trivial
      | leave _ => exact SpeedPc.advanceView _ _ _
      | advance _ _ _ _ _ => exact SpeedPc.advanceView _ _ _
      | _ => trivial
    · rcases List.mem_append.1 ho with hold | hnew
      · exact (hout _ _ _ hold).mono hk
      · rw [handed_of_move hm hnew] at hpc
        exact (hpc rfl).mono hk

end Local

section World

variable {G : Machine.Guard NodeID (BigNode D) (Msg D) Act (Event D)} {w : NodeWorld D (BigJob D)}

theorem exists_certified (hw : (machine E).Reach G w) {i : NodeID} (hi : i ∈ E.members) {view : ℤ}
    {leader : NodeID} (hs : ((w.host i).st.spbInstances (view, leader)).speedCert = true) :
    ∃ S ⊆ E.members.toFinset, E.hightThreshold ≤ S.card ∧ ∀ j ∈ S,
      ((w.host j).st.spbInstances (view, leader)).blockQcs HEIGHT_2 ≠ none := by
  obtain ⟨S, hS, hcard, hvoted⟩ := runs.speedVoters (orderly hw) hw hi hs
  refine ⟨S, hS, hcard, fun j hj => ?_⟩
  obtain ⟨o, ho, hc⟩ := hvoted j hj
  refine certified (runs.pool (hw.local j)) (Or.inr ⟨o, ho, ?_⟩)
  obtain ⟨m, hm, hP⟩ := Out.carries_iff.1 hc
  refine Out.carries_iff.2 ⟨m, hm, ?_⟩
  cases m with
  | speedVote sv => exact decide_eq_true (of_decide_eq_true hP).1
  | _ => simp at hP

theorem exists_certified_block (hw : (machine E).Reach G w) {j : NodeID} (hj : j ∈ E.members)
    {view : ℤ} {leader : NodeID}
    (hcert : ((w.host j).st.spbInstances (view, leader)).blockQcs HEIGHT_2 ≠ none) :
    ∃ d c, Backed E (machine E) w leader view HEIGHT_2 d c := by
  obtain ⟨q, hq⟩ := Option.ne_none_iff_exists'.1 hcert
  have hnames := runs.names (hw.local j) hq
  obtain ⟨c, hc, -⟩ := runs.blockQcs_sound (orderly hw) hw hj (hw.local j) (List.prefix_refl _) hq
  rw [hnames.view_eq, hnames.height_eq, hnames.proposer_eq] at hc
  exact ⟨_, c, hc⟩

/-- A block that is committed because of `SpeedCert()` is the leader's, when the hashes tell. -/
theorem eq_of_speeded (hw : (machine E).Reach G w) (hhash : HashesApart E (machine E) w) {i : NodeID}
    (hi : i ∈ E.members) {leader : NodeID} {view : ℤ} {b c : Block D}
    (hs : Speeded E (w.host i) leader view b) {d : D}
    (hc : Backed E (machine E) w leader view HEIGHT_2 d c) : b = c := by
  obtain ⟨p, hp, rfl⟩ := hs.stored
  have hb := (orderly hw).backed_of_received (E := E) hw hi hp
  have hknown : Known (machine E) w p.b := ⟨_, hb.host, hb.proposed⟩
  rcases hs.recorded with hz | ⟨p', hp', hk, hh, heq⟩
  · exact absurd hz (hhash _ hknown).1
  · have hb' := (orderly hw).backed_of_received (E := E) hw hi hp'
    obtain ⟨hv, ha⟩ := Prod.mk.inj hk
    rw [← hv, ← ha, hh] at hb'
    obtain rfl : p'.b = c := hb'.unique (orderly hw) hc
    exact (hhash _ hknown).2 _ ⟨_, hb'.host, hb'.proposed⟩ heq

theorem not_inHistory (hw : (machine E).Reach G w) {leader : NodeID}
    (havoid : ∀ b ∈ proposals (machine E) w, b.author ≠ leader → ∀ q ∈ b.references,
      q.proposer ≠ leader) {j : NodeID} (hj : j ∈ E.members) (hne : j ≠ leader) {b c : Block D}
    (hb : Proposed w j b) (hc : c.author = leader) : ¬ InHistory w b c := by
  have hauthor : ∀ i a, Proposed w i a → a.author = i := by
    intro i a ha
    obtain ⟨p, rfl, hp⟩ := proposal_of_proposed hw ha
    exact hp.author.2
  -- a step along a reference stays with the other authors
  have hstep : ∀ a a', (∃ i ∈ E.members, i ≠ leader ∧ Proposed w i a) → RefersTo w a a' →
      ∃ i ∈ E.members, i ≠ leader ∧ Proposed w i a' := by
    rintro a a' ⟨i, hi, hil, ha⟩ ⟨q, hq, ha', -, -⟩
    refine ⟨q.proposer, (exists_referred hw hi ha hq).2.1, ?_, ha'⟩
    exact havoid a (known_iff.1 ⟨i, hi, ha⟩) (hauthor i a ha ▸ hil) q hq
  intro hin
  have hreached : ∃ i ∈ E.members, i ≠ leader ∧ Proposed w i c := by
    clear hc
    induction hin with
    | single h => exact hstep _ _ ⟨j, hj, hne, hb⟩ h
    | tail _ h ih => exact hstep _ _ ih h
  obtain ⟨i, -, hil, hic⟩ := hreached
  exact hil ((hauthor i c hic).symm.trans hc)

theorem proposed_of_mem_proposals (hw : (machine E).Reach G w) {b : Block D}
    (hb : b ∈ proposals (machine E) w) : b.author ∈ E.members ∧ Proposed w b.author b := by
  obtain ⟨i, hi, hb⟩ := known_iff.2 hb
  obtain ⟨p, rfl, hp⟩ := proposal_of_proposed hw hb
  exact hp.author.2 ▸ ⟨hi, hb⟩

end World

/-- The blocks that a node has handed to its commitor for this leader, view and height. -/
def handedBlocks (leader : NodeID) (view : ℤ) (height : ℕ) (outs : List (NodeOut D)) :
    List (Block D) :=
  outs.filterMap fun o =>
    match o with
    | .event (.handed leader' view' height' b) =>
      if leader' = leader ∧ view' = view ∧ height' = height then some b else none
    | _ => none

theorem mem_handedBlocks {leader : NodeID} {view : ℤ} {height : ℕ} {outs : List (NodeOut D)}
    {b : Block D} (hb : b ∈ handedBlocks leader view height outs) :
    Out.event (.handed leader view height b) ∈ outs := by
  obtain ⟨o, ho, he⟩ := List.mem_filterMap.1 hb
  split at he
  · split at he
    · next hand =>
      obtain ⟨rfl, rfl, rfl⟩ := hand
      cases he
      exact ho
    · cases he
  · cases he

end DAGBigCore

open DAGBigCore in
/-- **A block that is committed because of `SpeedCert()` is in the history of the height-2 blocks of
the next view**, when the nodes certify it in time. -/
theorem speed_commit_in_history {E : Env D} (hn : E.n < 2 * E.hightThreshold) {view : ℤ}
    {leader : NodeID} {w : NodeWorld D (BigJob D)}
    (hw : (DAGBigCore.machine E).Reach (Prompt view leader) w) {i : NodeID} (hi : i ∈ E.members)
    {b : Block D} (hcommit : Out.event (.handed leader view HEIGHT_2 b) ∈ (w.host i).outs)
    {j : NodeID} (hj : j ∈ E.members) {b' : Block D} (hb' : Proposed w j b')
    (hview : b'.view = view + 1) (hheight : b'.height = HEIGHT_2) :
    ∃ c, Proposed w leader c ∧ c.view = view ∧ c.height = HEIGHT_2 ∧ InHistory w b' c ∧
      (HashesApart E (DAGBigCore.machine E) w → b = c) := by
  have hspeed := (speeded (hw.local i)).2 _ _ _ hcommit
  obtain ⟨S, hS, hcard, hcert⟩ := exists_certified hw hi hspeed.cert
  have hmem : ∀ s ∈ S, s ∈ E.members := fun s hs => List.mem_toFinset.1 (hS hs)
  obtain ⟨i₀, hi₀⟩ : S.Nonempty := Finset.card_pos.1 (lt_of_lt_of_le (Nat.succ_pos _) hcard)
  obtain ⟨d, c, hc⟩ := exists_certified_block hw (hmem i₀ hi₀) (hcert i₀ hi₀)
  have hnonneg : 0 ≤ view := by
    obtain ⟨p, hpc, hp⟩ := proposal_of_proposed hw hc.proposed
    rw [← hc.view_eq, ← hpc, ← hp.view]
    exact hp.nonneg
  refine ⟨c, hc.proposed, hc.view_eq, hc.height_eq, ?_, fun hhash => eq_of_speeded hw hhash hi hspeed hc⟩
  refine inHistory_of_quorum hw hj hb' (Or.inl (by omega)) hS (by omega) fun s hs a ha hal => ?_
  -- a node that holds the certificate refers to the block in its height-1 block of the next view
  have hlayer : layerBefore b'.view b'.height = (view + 1, HEIGHT_1) := by
    rw [hview, hheight]
    rfl
  obtain ⟨hav, hah⟩ := Prod.mk.inj (hal.trans hlayer)
  have hkeeps := keeps (hw.local s) hnonneg hc.host (hcert s hs)
  obtain ⟨o, ho, p, hm, rfl⟩ := ha
  have hp := proposal (hw.local s) ho hm
  obtain ⟨q, hq, hnames⟩ := hkeeps.proposed o ho p hm (hp.view.trans hav) (hp.height.trans hah)
  refine ⟨q, hq, hnames.proposer_eq ▸ hc.proposed, ?_, ?_⟩
  · exact hc.view_eq.trans hnames.view_eq.symm
  · exact hc.height_eq.trans hnames.height_eq.symm

/-! ## Runs of four nodes -/

namespace DagRun

open BigRun

/-- Node `i` hears of three certificates, looks for references and proposes. -/
def proposeNext (i : NodeID) : List (NodeOrder ℕ) :=
  .act i .callback :: again i .main 5 ++ again i .callback 2

/-- Node `i` gets the shares of the coin, and goes on to the next view. -/
def elect (view : ℤ) (i : NodeID) : List (NodeOrder ℕ) :=
  List.replicate 3 (.deliver i (Msg.isElect view)) ++ again i .main 10

/-- The blocks of nodes 0, 1 and 2 in view 0 are certified, those of height 1 at every node, and nodes
0, 1 and 2 send their shares of the coin. -/
def opening : List (NodeOrder ℕ) :=
  bootFour ++ [0, 1, 2].flatMap (propose 0 HEIGHT_1 [0, 1, 2, 3]) ++
  [0, 1, 2].flatMap (votes 0 HEIGHT_1 [0, 1, 2, 3]) ++ [0, 1, 2, 3].flatMap proposeNext ++
  [0, 1, 2].flatMap (propose 0 HEIGHT_2 [0, 1, 2]) ++
  [0, 1, 2].flatMap (votes 0 HEIGHT_2 [0, 1, 2]) ++
  [0, 1, 2].flatMap fun i => ([0, 1, 2].map fun p =>
    .deliver i fun m => Msg.isSpeedVote (0, p) m && decide (m.author = i)) ++ again i (.task 0) 9

/-- Nodes 0, 1 and 2 go through the first layer of view 1, and node 0 goes on to the second. -/
def nextView : List (NodeOrder ℕ) :=
  [0, 1, 2].flatMap (propose 1 HEIGHT_1 [0, 1, 2]) ++ [0, 1, 2].flatMap (votes 1 HEIGHT_1 [0]) ++
  proposeNext 0

/-- Node 0 leads view 0, and has its height-2 block committed. -/
def prompt : List (NodeOrder ℕ) :=
  opening ++ List.replicate 3 (.deliver 0 (Msg.isSpeedVote (0, 0))) ++ again 0 (.task 0) 9 ++
  [0, 1, 2].flatMap (elect 0) ++ nextView

/-- Node 3 leads view 0. The others have gone on to view 1 when its height-2 block reaches them; they
certify it, and their speed votes let node 3 commit it. -/
def late : List (NodeOrder ℕ) :=
  opening ++ [0, 1, 2].flatMap (elect 0) ++ propose 0 HEIGHT_2 [0, 1, 2, 3] 3 ++
  votes 0 HEIGHT_2 [0, 1, 2, 3] 3 ++ List.replicate 3 (.deliver 3 (Msg.isSpeedVote (0, 3))) ++
  again 3 (.task 0) 9 ++ elect 0 3 ++ nextView

/-- The world after `prompt`. -/
def promptWorld : NodeWorld ℕ (BigJob ℕ) :=
  (DAGBigCore.machine (Env.plain 4 fun _ => 0)).play (DAGBigCore.Prompt 0 0)
    (DAGBigCore.machine (Env.plain 4 fun _ => 0)).world prompt

/-- The world after `late`. -/
def lateWorld : NodeWorld ℕ (BigJob ℕ) :=
  (DAGBigCore.machine (Env.plain 4 threeThenZero)).play Machine.anyInput
    (DAGBigCore.machine (Env.plain 4 threeThenZero)).world late

end DagRun

theorem DagRun.promptWorld_reach :
    (DAGBigCore.machine (Env.plain 4 fun _ => 0)).Reach Machine.anyInput DagRun.promptWorld :=
  Machine.Steps.mono (fun _ _ _ _ => trivial) (Machine.play_sound _ DagRun.prompt)

theorem DagRun.promptWorld_spec :
    (Env.plain 4 fun _ => 0).lowThreshold ≤
      DAGBigCore.getWeakVotes (DagRun.promptWorld.host 1).st 0 0 ∧
    DAGBigCore.handedBlocks 0 0 HEIGHT_2 (DagRun.promptWorld.host 0).outs ≠ [] ∧
    ∃ b ∈ proposals (DAGBigCore.machine (Env.plain 4 fun _ => 0)) DagRun.promptWorld,
      b.author = 0 ∧ b.view = 1 ∧ b.height = HEIGHT_2 := by
  decide +kernel

open DAGBigCore in
theorem weak_commit_in_history_four : ∃ b c, Proposed DagRun.promptWorld 0 b ∧ b.view = 1 ∧
    Proposed DagRun.promptWorld 0 c ∧ c.view = 0 ∧ c.height = HEIGHT_1 ∧
      InHistory DagRun.promptWorld b c := by
  have hw := DagRun.promptWorld_reach
  obtain ⟨hweak, -, b, hb, ha, hv, -⟩ := DagRun.promptWorld_spec
  have hb : Proposed DagRun.promptWorld 0 b := ha ▸ (proposed_of_mem_proposals hw hb).2
  obtain ⟨c, hc⟩ := weak_commit_in_history (by decide) hw Relation.ReflTransGen.refl
    (by decide : (1 : NodeID) ∈ _) hweak (by decide : (0 : NodeID) ∈ _) hb (by omega)
  exact ⟨b, c, hb, hv, hc⟩

open DAGBigCore in
theorem speed_commit_in_history_four : ∃ b b' c,
    Out.event (.handed 0 0 HEIGHT_2 b) ∈ (DagRun.promptWorld.host 0).outs ∧
      Proposed DagRun.promptWorld 0 b' ∧ b'.view = 1 ∧ b'.height = HEIGHT_2 ∧
      Proposed DagRun.promptWorld 0 c ∧ c.view = 0 ∧ c.height = HEIGHT_2 ∧
      InHistory DagRun.promptWorld b' c := by
  have hw : (DAGBigCore.machine (Env.plain 4 fun _ => 0)).Reach (Prompt 0 0) DagRun.promptWorld :=
    Machine.play_sound _ DagRun.prompt
  obtain ⟨-, hhanded, b', hb', ha, hv, hh⟩ := DagRun.promptWorld_spec
  obtain ⟨b, hb⟩ := List.exists_mem_of_ne_nil _ hhanded
  have hb' : Proposed DagRun.promptWorld 0 b' := ha ▸ (proposed_of_mem_proposals hw hb').2
  obtain ⟨c, hc, hcv, hch, hin, -⟩ := speed_commit_in_history (by decide) hw
    (by decide : (0 : NodeID) ∈ _) (mem_handedBlocks hb) (by decide : (0 : NodeID) ∈ _) hb' hv hh
  exact ⟨b, b', c, mem_handedBlocks hb, hb', hv, hh, hc, hcv, hch, hin⟩

/-- Node 3 commits its height-2 block, node 0 goes on to height 2 of view 1, and the blocks of nodes 0,
1 and 2 refer to one another only. -/
theorem DagRun.lateWorld_spec :
    DAGBigCore.handedBlocks 3 0 HEIGHT_2 (DagRun.lateWorld.host 3).outs ≠ [] ∧
    (∃ b ∈ proposals (DAGBigCore.machine (Env.plain 4 threeThenZero)) DagRun.lateWorld,
      b.author = 0 ∧ b.view = 1 ∧ b.height = HEIGHT_2) ∧
    (∀ b ∈ proposals (DAGBigCore.machine (Env.plain 4 threeThenZero)) DagRun.lateWorld,
      b.author ≠ 3 → ∀ q ∈ b.references, q.proposer ≠ 3) ∧
    HashesApart (Env.plain 4 threeThenZero) (DAGBigCore.machine (Env.plain 4 threeThenZero))
      DagRun.lateWorld := by
  decide +kernel

open DAGBigCore in
/-- **A block that is committed because of `SpeedCert()` can be forgotten.** All four nodes follow the
code. -/
theorem speed_commit_forgotten : ∃ (E : Env ℕ) (w : NodeWorld ℕ (BigJob ℕ)),
    E.n = 3 * E.tolerated + 1 ∧ (DAGBigCore.machine E).Reach Machine.anyInput w ∧
    HashesApart E (DAGBigCore.machine E) w ∧
    ∃ i ∈ E.members, ∃ j ∈ E.members, ∃ leader view b b',
      Out.event (.handed leader view HEIGHT_2 b) ∈ (w.host i).outs ∧ Proposed w j b' ∧
      b'.view = view + 1 ∧ b'.height = HEIGHT_2 ∧
      ∀ c, Proposed w leader c → ¬ InHistory w b' c := by
  have hw : (DAGBigCore.machine (Env.plain 4 threeThenZero)).Reach Machine.anyInput DagRun.lateWorld :=
    Machine.play_sound _ DagRun.late
  obtain ⟨hhanded, ⟨b', hb', ha, hv, hh⟩, havoid, hhash⟩ := DagRun.lateWorld_spec
  obtain ⟨b, hb⟩ := List.exists_mem_of_ne_nil _ hhanded
  have hb' : Proposed DagRun.lateWorld 0 b' := ha ▸ (proposed_of_mem_proposals hw hb').2
  refine ⟨_, DagRun.lateWorld, by decide, hw, hhash, 3, by decide, 0, by decide, 3, 0, b, b',
    mem_handedBlocks hb, hb', hv, hh, fun c hc => ?_⟩
  obtain ⟨p, rfl, hp⟩ := proposal_of_proposed hw hc
  exact not_inHistory hw havoid (by decide) (by decide) hb' hp.author.2

end S2Pac
