import S2Pac.Quorums
import S2Pac.Traffic

/-!
# Blocks, votes and certificates of a world

What the three protocols have in common when nobody is faulty. In an orderly world every node signs
its own messages and proposes one block for a view and a height (`Orderly`), and votes once for what it
was sent (`Voting`). Then `HightThreshold()` votes at a node come from as many nodes and are for one
block, and a certificate names that block (`QcSound`).
-/

set_option linter.unusedSectionVars false

namespace S2Pac

open Lib

variable {D : Type} [DecidableEq D] {J : Type}

abbrev NodeMachine (D J : Type) : Type := Machine NodeID (Node D J) (Msg D) Act (Event D)

abbrev NodeWorld (D J : Type) : Type := World NodeID (Node D J) (Msg D) (Event D)

/-- The orders that a run is written down with. -/
abbrev NodeOrder (D : Type) : Type := Order NodeID (Msg D) Act

/-- Node `i` takes the step `n` times. -/
def again (i : NodeID) (a : Act) (n : ℕ) : List (NodeOrder D) := List.replicate n (.act i a)

/-- Four nodes start. -/
def bootFour : List (NodeOrder D) := [0, 1, 2, 3].map fun i => .act i .boot

/-- Node `i` has proposed the block. -/
def Proposed (w : NodeWorld D J) (i : NodeID) (b : Block D) : Prop :=
  ∃ o ∈ (w.host i).outs, ∃ p, o.msg = some (.propose p) ∧ p.b = b

theorem Proposed.mono {w w' : NodeWorld D J} (h : Machine.Later w w') {i : NodeID} {b : Block D}
    (hb : Proposed w i b) : Proposed w' i b :=
  let ⟨o, ho, hp⟩ := hb; ⟨o, (h i).2.subset ho, hp⟩

variable {M : NodeMachine D J} {G : Machine.Guard NodeID (Node D J) (Msg D) Act (Event D)}
  {E : Env D} {w w' : NodeWorld D J}

theorem exists_mem_of_quorums (hn : E.n < 2 * E.hightThreshold) {S S' : Finset NodeID}
    (hS : S ⊆ E.members.toFinset) (hS' : S' ⊆ E.members.toFinset)
    (hc : E.hightThreshold ≤ S.card) (hc' : E.hightThreshold ≤ S'.card) : ∃ j ∈ S, j ∈ S' := by
  have hcard := E.card_members
  obtain ⟨j, hj⟩ := Finset.inter_nonempty_of_card_lt_card_add_card hS hS' (by omega)
  exact ⟨j, Finset.mem_inter.1 hj⟩

/-! ## Proposals -/

/-- Every node signs its messages and proposes one block for a view and a height. -/
structure Orderly (M : NodeMachine D J) (w : NodeWorld D J) : Prop where
  signed : ∀ i ∈ M.hosts, ∀ o ∈ (w.host i).outs, ∀ m, o.msg = some m → m.SignedBy i ∧ m.Proper
  once : ∀ i ∈ M.hosts, ∀ view height,
    (w.host i).outs.countP (Out.carries (Msg.isPropose (view, i) height)) ≤ 1

namespace Orderly

variable (ho : Orderly M w) (hw : M.Reach G w)
include ho

/-- **The block of a proposer, a view and a height.** -/
theorem block_unique {i : NodeID} (hi : i ∈ M.hosts) {b b' : Block D} (hb : Proposed w i b)
    (hb' : Proposed w i b') (hview : b.view = b'.view) (hheight : b.height = b'.height) :
    b = b' := by
  obtain ⟨o, hom, p, hp, rfl⟩ := hb
  obtain ⟨o', hom', p', hp', rfl⟩ := hb'
  obtain ⟨ha, -, hv, hh, -⟩ := ho.signed i hi o hom _ hp
  obtain ⟨ha', -, hv', hh', -⟩ := ho.signed i hi o' hom' _ hp'
  have ha : p.author = i := ha
  have ha' : p'.author = i := ha'
  have hoo : o = o' := by
    refine eq_of_countP_le_one (ho.once i hi p.view p.height) hom hom' ?_ ?_
    · exact Out.carries_iff.2 ⟨_, hp, by simp [ha]⟩
    · refine Out.carries_iff.2 ⟨_, hp', ?_⟩
      simp [ha', hv, hv', hh, hh', hview, hheight]
  subst hoo
  rw [hp] at hp'
  cases hp'
  rfl

theorem proposed_of_sent {i : NodeID} (hi : i ∈ M.hosts) {o : NodeOut D}
    (hom : o ∈ (w.host i).outs) {p : ProposeMsg D} (hp : o.msg = some (.propose p)) :
    p.author = i ∧ Proposed w p.author p.b := by
  have ha : p.author = i := (ho.signed i hi o hom _ hp).1
  exact ⟨ha, o, ha.symm ▸ hom, p, hp, rfl⟩

include hw

theorem proper_of_received {i : NodeID} (hi : i ∈ M.hosts) : AllProper (w.host i).received := by
  intro m hm
  obtain ⟨j, hj, o, hom, hmsg⟩ := hw.sender hi hm
  exact (ho.signed j hj o hom m (Out.msg_of_msgTo hmsg)).2

theorem proposed_of_received {i : NodeID} (hi : i ∈ M.hosts) {p : ProposeMsg D}
    (hp : Msg.propose p ∈ (w.host i).received) : p.author ∈ M.hosts ∧ Proposed w p.author p.b := by
  obtain ⟨j, hj, o, hom, hmsg⟩ := hw.sender hi hp
  obtain ⟨ha, hb⟩ := ho.proposed_of_sent hj hom (Out.msg_of_msgTo hmsg)
  exact ⟨ha ▸ hj, hb⟩

/-- Messages that bear the name of the proposer of `k` are sent by nobody else; when it sends at most
one of them, a node receives at most one. -/
theorem received_le_one {k : Key} {P : Msg D → Bool}
    (hP : ∀ m, P m = true → ∀ i, m.SignedBy i → i = k.2)
    (hone : k.2 ∈ M.hosts → (w.host k.2).outs.countP (Out.carries P) ≤ 1) {i : NodeID}
    (hi : i ∈ M.hosts) : (w.host i).received.countP P ≤ 1 := by
  have hzero : ∀ j ∈ M.hosts, j ≠ k.2 → (w.host j).outs.countP (Out.carries P) = 0 := by
    intro j hj hne
    refine List.countP_eq_zero.2 fun o hom hc => ?_
    obtain ⟨m, hm, hPm⟩ := Out.carries_iff.1 hc
    exact hne (hP m hPm j (ho.signed j hj o hom m hm).1)
  by_cases hk : k.2 ∈ M.hosts
  · exact hw.received_le_one hi hzero (hone hk)
  · have hone : (w.host i).outs.countP (Out.carries P) ≤ 1 := by
      rw [hzero i hi fun he => hk (he ▸ hi)]
      exact Nat.zero_le _
    exact hw.received_le_one hi (fun j hj _ => hzero j hj fun he => hk (he ▸ hj)) hone

theorem propose_le_one (k : Key) (height : ℕ) {i : NodeID} (hi : i ∈ M.hosts) :
    (w.host i).received.countP (Msg.isPropose k height) ≤ 1 := by
  refine ho.received_le_one hw (k := k) (fun m hm j hs => ?_) (fun hk => ho.once k.2 hk k.1 height) hi
  cases m with
  | propose p =>
    simp only [Msg.isPropose, decide_eq_true_eq] at hm
    exact (Eq.symm hs).trans (congrArg Prod.snd hm.1)
  | _ => simp at hm

end Orderly

/-! ## Votes -/

/-- Every node votes for what it was sent, and once for an instance and a height. -/
structure Voting (E : Env D) (M : NodeMachine D J) (w : NodeWorld D J) : Prop where
  voted : ∀ i ∈ M.hosts, ∀ o ∈ (w.host i).outs, ∀ v, o.msg = some (.vote v) →
    ∃ p, Msg.propose p ∈ (w.host i).received ∧ v = newVoteMsg E i p.b
  once : ∀ i ∈ M.hosts, ∀ k height,
    (w.host i).outs.countP (Out.carries (Msg.isVote k height)) ≤ 1

/-- The block that stands behind a proposer, a view, a height and a hash. -/
structure Backed (E : Env D) (M : NodeMachine D J) (w : NodeWorld D J) (proposer : NodeID)
    (view : ℤ) (height : ℕ) (d : D) (b : Block D) : Prop where
  host : proposer ∈ M.hosts
  proposed : Proposed w proposer b
  author : b.author = proposer
  view_eq : b.view = view
  height_eq : b.height = height
  hash : b.hash E = d

theorem Backed.mono (h : Machine.Later w w') {proposer : NodeID} {view : ℤ} {height : ℕ} {d : D}
    {b : Block D} (hb : Backed E M w proposer view height d b) :
    Backed E M w' proposer view height d b :=
  ⟨hb.host, hb.proposed.mono h, hb.author, hb.view_eq, hb.height_eq, hb.hash⟩

theorem Backed.unique (ho : Orderly M w) {proposer : NodeID} {view : ℤ} {height : ℕ} {d d' : D}
    {b b' : Block D} (hb : Backed E M w proposer view height d b)
    (hb' : Backed E M w proposer view height d' b') : b = b' :=
  ho.block_unique hb.host hb.proposed hb'.proposed (hb.view_eq.trans hb'.view_eq.symm)
    (hb.height_eq.trans hb'.height_eq.symm)

theorem Orderly.backed_of_received (ho : Orderly M w) (hw : M.Reach G w) {i : NodeID}
    (hi : i ∈ M.hosts) {p : ProposeMsg D} (hp : Msg.propose p ∈ (w.host i).received) :
    Backed E M w p.author p.view p.height (p.b.hash E) p.b := by
  obtain ⟨hhost, hprop⟩ := ho.proposed_of_received hw hi hp
  obtain ⟨ha, hv, hh, -⟩ := ho.proper_of_received hw hi _ hp
  exact ⟨hhost, hprop, ha.symm, hv.symm, hh.symm, rfl⟩

theorem Voting.backed_of_received (hv : Voting E M w) (ho : Orderly M w) (hw : M.Reach G w)
    {i : NodeID} (hi : i ∈ M.hosts) {v : VoteMsg D} (hm : Msg.vote v ∈ (w.host i).received) :
    ∃ b, Backed E M w v.proposer v.view v.height v.blockHash b := by
  obtain ⟨j, hj, o, hom, hmsg⟩ := hw.sender hi hm
  obtain ⟨p, hp, rfl⟩ := hv.voted j hj o hom v (Out.msg_of_msgTo hmsg)
  have hb := ho.backed_of_received (E := E) hw hj hp
  have ha : (newVoteMsg E j p.b).proposer = p.author := hb.author
  exact ⟨p.b, ha ▸ hb.host, ha ▸ hb.proposed, rfl, rfl, rfl, rfl⟩

/-! ## Certificates -/

theorem qcLEvel_mem {s : SPB D} {level : ℕ} {q : BlockQC D} (h : s.qcLEvel = (level, some q)) :
    s.preQc = some q ∨ ∃ height, s.blockQcs height = some q := by
  unfold SPB.qcLEvel at h
  split at h
  · exact Or.inr ⟨HEIGHT_2, congrArg Prod.snd h⟩
  · split at h
    · exact Or.inr ⟨HEIGHT_1, congrArg Prod.snd h⟩
    · exact Or.inl (congrArg Prod.snd h)

/-- **The certificate is sound**: it names a block of its proposer, and some node has received votes
for that block from `HightThreshold()` nodes. -/
def QcSound (E : Env D) (M : NodeMachine D J) (w : NodeWorld D J) (q : BlockQC D) : Prop :=
  ∃ b, Backed E M w q.proposer q.view q.height q.parentBlockHash b ∧
    ∃ i ∈ M.hosts, ∃ S ⊆ M.hosts.toFinset, E.hightThreshold ≤ S.card ∧
      ∀ j ∈ S, ∃ v, Msg.vote v ∈ (w.host i).received ∧ v.author = j ∧ v.proposer = q.proposer ∧
        v.view = q.view ∧ v.height = q.height ∧ v.blockHash = b.hash E

theorem QcSound.mono (h : Machine.Later w w') {q : BlockQC D} (hq : QcSound E M w q) :
    QcSound E M w' q := by
  obtain ⟨b, hb, i, hi, S, hS, hcard, hvotes⟩ := hq
  refine ⟨b, hb.mono h, i, hi, S, hS, hcard, fun j hj => ?_⟩
  obtain ⟨v, hv, hrest⟩ := hvotes j hj
  exact ⟨v, (h i).1.subset hv, hrest⟩

/-- Sound certificates of one proposer, view and height carry one hash. -/
theorem QcSound.unique (ho : Orderly M w) {q q' : BlockQC D} (hq : QcSound E M w q)
    (hq' : QcSound E M w q') (hproposer : q.proposer = q'.proposer) (hview : q.view = q'.view)
    (hheight : q.height = q'.height) : q.parentBlockHash = q'.parentBlockHash := by
  obtain ⟨b, hb, -⟩ := hq
  obtain ⟨b', hb', -⟩ := hq'
  rw [hproposer, hview, hheight] at hb
  rw [← hb.hash, ← hb'.hash, hb.unique ho hb']

theorem QcSound.voters (hw : M.Reach G w) (ho : Orderly M w) {q : BlockQC D}
    (hq : QcSound E M w q) : ∃ S ⊆ M.hosts.toFinset, E.hightThreshold ≤ S.card ∧
      ∀ j ∈ S, ∃ o ∈ (w.host j).outs, o.carries (Msg.isVote (q.view, q.proposer) q.height) = true := by
  obtain ⟨b, -, i, hi, S, hS, hcard, hvotes⟩ := hq
  refine ⟨S, hS, hcard, fun j hj => ?_⟩
  obtain ⟨v, hv, ha, hprop, hview, hheight, -⟩ := hvotes j hj
  obtain ⟨j', hj', o, hom, hmsg⟩ := hw.sender hi hv
  have hmsg := Out.msg_of_msgTo hmsg
  have ha' : v.author = j' := (ho.signed j' hj' o hom _ hmsg).1
  obtain rfl : j' = j := ha'.symm.trans ha
  exact ⟨o, hom, Out.carries_iff.2 ⟨_, hmsg, by simp [hprop, hview, hheight]⟩⟩

/-- **`HightThreshold()` votes at a node come from as many nodes** and are for one block. -/
theorem Voting.exists_voters (hv : Voting E M w) (ho : Orderly M w) (hw : M.Reach G w) {i : NodeID}
    (hi : i ∈ M.hosts) {v : VoteMsg D} (hm : Msg.vote v ∈ (w.host i).received)
    (hcount : E.hightThreshold ≤
      (w.host i).received.countP (Msg.isVote (v.view, v.proposer) v.height)) :
    ∃ b, Backed E M w v.proposer v.view v.height v.blockHash b ∧
      ∃ S ⊆ M.hosts.toFinset, E.hightThreshold ≤ S.card ∧ ∀ j ∈ S, ∃ v',
        Msg.vote v' ∈ (w.host i).received ∧ v'.author = j ∧ v'.proposer = v.proposer ∧
        v'.view = v.view ∧ v'.height = v.height ∧ v'.blockHash = b.hash E := by
  obtain ⟨b, hb⟩ := hv.backed_of_received ho hw hi hm
  have hname : ∀ j ∈ M.hosts, ∀ o ∈ (w.host j).outs, ∀ m, o.msg = some m →
      Msg.isVote (v.view, v.proposer) v.height m = true → m.author = j := by
    intro j hj o hom m hmsg hP
    cases m with
    | vote v' => exact (ho.signed j hj o hom _ hmsg).1
    | _ => simp at hP
  obtain ⟨S, hS, hcard, hvotes⟩ := hw.exists_authors hi hname
    (fun j hj => hv.once j hj (v.view, v.proposer) v.height) hcount
  refine ⟨b, hb, S, hS, hcard, fun j hj => ?_⟩
  obtain ⟨m, hm', hP, hj⟩ := hvotes j hj
  cases m with
  | vote v' =>
    simp only [Msg.isVote, decide_eq_true_eq, Prod.mk.injEq] at hP
    obtain ⟨⟨hview, hprop⟩, hheight⟩ := hP
    refine ⟨v', hm', hj, hprop, hview, hheight, ?_⟩
    obtain ⟨b', hb'⟩ := hv.backed_of_received ho hw hi hm'
    rw [← hb'.hash, hb.unique ho (hprop ▸ hview ▸ hheight ▸ hb')]
  | _ => simp at hP

/-- **`HightThreshold()` votes make a sound certificate.** -/
theorem Voting.qcSound (hv : Voting E M w) (ho : Orderly M w) (hw : M.Reach G w) {i : NodeID}
    (hi : i ∈ M.hosts) {v : VoteMsg D} (hm : Msg.vote v ∈ (w.host i).received)
    (hcount : E.hightThreshold ≤
      (w.host i).received.countP (Msg.isVote (v.view, v.proposer) v.height)) :
    QcSound E M w (v.makeQC (v.view, v.proposer)) := by
  obtain ⟨b, hb, S, hvoters⟩ := hv.exists_voters ho hw hi hm hcount
  exact ⟨b, hb, i, hi, S, hvoters⟩

end S2Pac
