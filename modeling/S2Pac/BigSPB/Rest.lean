import S2Pac.BigCore.Tally

/-!
# Honest nodes of the big protocols at rest

Where nothing is left to do at the nodes that run (`Env.live`) and nothing is on its way to them, everything
that was sent has been received. The books of every instance are closed: a proposal has the vote of every
live node, both certificates where both blocks were proposed, and the speed votes. When a quorum has
proposed both blocks of a view, every live node has opened the election and knows the leader
(`Candid.led`). What a node does with the leader is what the protocols differ in.
-/

set_option linter.unusedSectionVars false

namespace S2Pac

open Lib

variable {D : Type} [DecidableEq D]

/-! ## One instance among the others -/

namespace BigSPB

variable {E : Env D} {self : NodeID} {V : Rules D} {k : Key}
  {x : Pool Key (SPB D) (BigJob D) (Msg D) (NodeOut D)}

/-- The job is for the instance that is to do it. -/
def isRight (k : Key) : BigJob D → Bool
  | .speedVote sv => decide (sv.proposer = k.2 ∧ sv.view = k.1)
  | _ => true

/-- What instance `k` is handed of the messages `l`. -/
def handedAt (V : Rules D) (k : Key) (l : List (Msg D)) : List (BigJob D) :=
  ((l.flatMap (spawn V)).filter (PoolCode.followed k (isRight k))).map Prod.snd

theorem isRight_of_jobStep {s s' : SPB D} {j : BigJob D} {js : List (BigJob D)}
    {os : List (NodeOut D)} (h : JobStep E self V k s j s' js os)
    (hbuf : ∀ sv ∈ s.unHandleSpeedVote, (sv.view, sv.proposer) = k) :
    ∀ j' ∈ js, isRight k j' = true := by
  intro j' hj'
  cases h with
  | replaySpeed =>
    obtain ⟨sv, hsv, rfl⟩ := List.mem_map.1 hj'
    obtain rfl := hbuf sv hsv
    simp [isRight]
  | replay p => rcases mem_waiting hj' with ⟨-, p, -, rfl⟩ | ⟨-, v, -, rfl⟩ <;> rfl
  | quorumFirst v hv => rcases V.next_cases _ _ _ _ hj' with rfl | ⟨rfl, -⟩ <;> rfl
  | count v => split at hj' <;> simp_all [isRight]
  | speedCount => split at hj' <;> simp_all [isRight]
  | _ => simp_all [isRight]

theorem idle_of_not_isRight {s s' : SPB D} {j : BigJob D} {js : List (BigJob D)}
    {os : List (NodeOut D)} (h : JobStep E self V k s j s' js os) (hj : isRight k j = false) :
    s' = s ∧ js = [] := by
  cases j with
  | speedVote sv =>
    cases h with
    | crash _ hp => exact ⟨rfl, rfl⟩
    | speedDrop _ _ => exact ⟨rfl, rfl⟩
    | speedWait _ hp hv _ => simp [isRight, hp, hv] at hj
    | speedVote _ hp hv _ => simp [isRight, hp, hv] at hj
  | _ => simp [isRight] at hj

/-- **The goroutines of instance `k`**, with the log of what they did. -/
theorem serves_at (hx : (code E self V).Serves x) (k : Key) :
    ∃ log, (serving E self V k).Serves
      ⟨Function.update (fun _ => SPB.new E) k (x.inst k),
        x.tasks.filter (PoolCode.followed k (isRight k)), handedAt V k x.received, log⟩ ∧
      ∀ e ∈ log, (∃ l, Handed self V l k e.1) ∧ ∀ o ∈ e.2, o ∈ x.outs := by
  have hdrop : ∀ y, (code E self V).Serves y → ∀ j s' js os, (k, j) ∈ y.tasks →
      JobStep E self V k (y.inst k) j s' js os → isRight k j = false →
      s' = y.inst k ∧ ∀ j' ∈ js, isRight k j' = false := by
    intro y _ j s' js os _ hs hj
    obtain ⟨rfl, rfl⟩ := idle_of_not_isRight hs hj
    exact ⟨rfl, by simp⟩
  obtain ⟨log, hy, hlog⟩ := hx.atKey k (isRight k) hdrop
    fun y hy _ _ _ _ _ hs _ => isRight_of_jobStep hs (speedBuffer_at hy.run k)
  refine ⟨log, hy, fun e he => ⟨?_, (hlog e he).2⟩⟩
  obtain ⟨y, hy, hj⟩ := (hlog e he).1
  exact ⟨y.received, (run_sourced hy.run).1 _ hj⟩

theorem mem_handedAt {l : List (Msg D)} {j : BigJob D} (hj : j ∈ handedAt V k l) :
    isRight k j = true ∧ ∃ m ∈ l, (k, j) ∈ spawn V m := by
  obtain ⟨⟨k', j'⟩, ht, rfl⟩ := List.mem_map.1 hj
  obtain ⟨hmem, hf⟩ := List.mem_filter.1 ht
  obtain ⟨rfl, hr⟩ : k' = k ∧ isRight k j' = true := by simpa [PoolCode.followed] using hf
  obtain ⟨m, hm, hs⟩ := List.mem_flatMap.1 hmem
  exact ⟨hr, m, hm, hs⟩

theorem countP_handedAt {Q : BigJob D → Bool} {P : Msg D → Bool}
    (h : ∀ m, (handedAt V k [m]).countP Q = if P m then 1 else 0) (l : List (Msg D)) :
    (handedAt V k l).countP Q = l.countP P := by
  induction l with
  | nil => rfl
  | cons m l ih =>
    have hcons : handedAt V k (m :: l) = handedAt V k [m] ++ handedAt V k l := by
      simp [handedAt, List.flatMap_cons, List.filter_append]
    rw [hcons, List.countP_append, h, ih, List.countP_cons, Nat.add_comm]

theorem countP_toVote_handedAt (height : ℕ) (l : List (Msg D)) :
    (handedAt V k l).countP (toVote height) = l.countP (Msg.isPropose k height) := by
  refine countP_handedAt (fun m => ?_) l
  cases m with
  | propose p =>
    by_cases hk : (p.view, p.author) = k
    · simp [handedAt, spawn, PoolCode.followed, isRight, hk, List.countP_singleton]
    · simp [handedAt, spawn, PoolCode.followed, hk]
  | vote v =>
    by_cases hk : (v.view, v.proposer) = k <;>
      simp [handedAt, spawn, PoolCode.followed, isRight, hk]
  | speedVote sv =>
    by_cases hk : PoolCode.followed k (isRight k) (V.speedKey sv, BigJob.speedVote sv) = true <;>
      simp [handedAt, spawn, hk]
  | _ => simp [handedAt, spawn]

theorem countP_toCount_handedAt (height : ℕ) (l : List (Msg D)) :
    (handedAt V k l).countP (toCount height) = l.countP (Msg.isVote k height) := by
  refine countP_handedAt (fun m => ?_) l
  cases m with
  | propose p =>
    by_cases hk : (p.view, p.author) = k <;>
      simp [handedAt, spawn, PoolCode.followed, isRight, hk]
  | vote v =>
    by_cases hk : (v.view, v.proposer) = k
    · simp [handedAt, spawn, PoolCode.followed, isRight, hk, List.countP_singleton]
    · simp [handedAt, spawn, PoolCode.followed, hk]
  | speedVote sv =>
    by_cases hk : PoolCode.followed k (isRight k) (V.speedKey sv, BigJob.speedVote sv) = true <;>
      simp [handedAt, spawn, hk]
  | _ => simp [handedAt, spawn]

/-! ### At rest -/

section Rest

variable {plan : ℕ → ProposeMsg D}
  {y : Pool Key (SPB D) (BigJob D) (BigJob D) (BigJob D × List (NodeOut D))}
  (hy : (serving E self V k).Serves y) (hr : Intake E V k plan y.received) (hrest : y.tasks = [])
include hy hr hrest

/-- A proposal of height 1 has been voted for, -/
theorem replayed_first (h₁ : 0 < y.received.countP (toVote HEIGHT_1)) :
    0 < y.outs.countP (done (isReplay HEIGHT_1)) := by
  have h := replays_first hy hr
  simp only [hrest, pending, List.countP_nil] at h
  omega

/-- and so has one of height 2 that follows it. -/
theorem replayed_second (h₁ : 0 < y.received.countP (toVote HEIGHT_1))
    (h₂ : 0 < y.received.countP (toVote HEIGHT_2)) :
    0 < y.outs.countP (done (isReplay HEIGHT_2)) := by
  have h := replays_second hy hr
  have hfirst := replayed_first hy hr hrest h₁
  rw [if_neg (by omega)] at h
  simp only [hrest, pending, List.countP_nil] at h
  omega

theorem certified_of_votes {height : ℕ} (hh : height ≤ HEIGHT_2)
    (hre : 0 < y.outs.countP (done (isReplay height)))
    (hvotes : E.hightThreshold ≤ y.received.countP (toCount height)) :
    (y.inst k).blockQcs height ≠ none := by
  have hcount := votes_counted hy hr hh
  have honce := certified_once hy hr height
  rw [if_neg (by omega)] at hcount
  simp only [hrest, pending, List.countP_nil, Nat.add_zero] at hcount honce
  rw [if_pos (by omega)] at honce
  rw [← Option.isSome_iff_ne_none]
  cases hs : ((y.inst k).blockQcs height).isSome
  · rw [hs] at honce
    cases honce
  · rfl

end Rest

end BigSPB

/-- The instances are served with all that the node has accepted, and what they have put out the node has
sent. -/
theorem Conducts.serves_outs {E : Env D} {docG : Bool} {V : BigSPB.Rules D}
    {second : BigNode D → NodeID → ℤ → Bool} {M : NodeMachine D (BigJob D)}
    {G : Machine.Guard NodeID (BigNode D) (Msg D) Act (Event D)} {self : NodeID}
    {h : NodeHost D (BigJob D)}
    (hM : Conducts E docG (BigSPB.spawn V) (fun i => BigSPB.JobStep E i V) second M)
    (htakes : ∀ i c m r, M.recv i c m = some r → m.passes E docG = true →
      r.1.tasks = c.tasks ++ BigSPB.spawn V m) (hl : M.Local G self h) :
    ∃ outs ⊆ h.outs, (BigSPB.code E self V).Serves
      ⟨h.st.spbInstances, h.st.tasks, h.received.filter (Msg.passes E docG), outs⟩ := by
  induction hl with
  | start =>
    rw [Machine.start, hM.init]
    exact ⟨[], List.Subset.refl _, PoolCode.Serves.start⟩
  | @recv h m s o _ _ hs ih =>
    obtain ⟨outs, hsub, ih⟩ := ih
    refine ⟨outs, fun _ ho => List.mem_append_left _ (hsub ho), ?_⟩
    have hstep := hM.recv _ _ _ _ hs
    have hspb : s.spbInstances = h.st.spbInstances := hstep.spb
    by_cases hp : m.passes E docG = true
    · have htasks : s.tasks = h.st.tasks ++ BigSPB.spawn V m := htakes _ _ _ _ hs hp
      rw [List.filter_append, List.filter_cons_of_pos hp, List.filter_nil, hspb, htasks]
      exact ih.recv m
    · have htasks : s.tasks = h.st.tasks := hstep.tasks.resolve_right fun h => hp h.1
      rw [List.filter_append, List.filter_cons_of_neg hp, List.filter_nil, List.append_nil, hspb,
        htasks]
      exact ih
  | @act h a s o _ _ hs ih =>
    obtain ⟨outs, hsub, ih⟩ := ih
    have still (hspb : s.spbInstances = h.st.spbInstances) (htasks : s.tasks = h.st.tasks) :
        ∃ outs ⊆ h.outs ++ o, (BigSPB.code E self V).Serves
          ⟨s.spbInstances, s.tasks, h.received.filter (Msg.passes E docG), outs⟩ := by
      rw [hspb, htasks]
      exact ⟨outs, fun _ ho => List.mem_append_left _ (hsub ho), ih⟩
    cases hM.act _ _ _ _ hs with
    | task _ hi hstep hspb htasks _ =>
      have hjob := ih.job hi hstep
      dsimp only at hspb htasks ⊢
      rw [hspb, htasks]
      exact ⟨_, List.append_subset.2 ⟨fun _ ho => List.mem_append_left _ (hsub ho),
        List.subset_append_right _ _⟩, hjob⟩
    | coin _ hc =>
      cases hc <;> exact still rfl rfl
    | commitor _ hr =>
      cases hr
      exact still rfl rfl
    | rest _ hspb htasks => exact still hspb htasks

/-! ## Honest shares -/

namespace Elector

variable {E : Env D} {view : ℤ}

theorem kept_spec (view : ℤ) (es : List ElectMsg) :
    (∀ e ∈ kept view es, e ∈ es ∧ e.view = view) ∧ ((kept view es).map ElectMsg.author).Nodup := by
  induction es using List.reverseRecOn with
  | nil => simp [kept]
  | append_singleton es e ih =>
    have happ : kept view (es ++ [e]) = keep view (kept view es) e := by simp [kept]
    obtain ⟨hmem, hnodup⟩ := ih
    have hold : ∀ x ∈ kept view es, x ∈ es ++ [e] ∧ x.view = view :=
      fun x hx => ⟨List.mem_append_left _ (hmem x hx).1, (hmem x hx).2⟩
    rw [happ, keep]
    split
    · next hnew =>
      constructor
      · intro x hx
        rcases List.mem_append.1 hx with hx | hx
        · exact hold x hx
        · rw [List.mem_singleton.1 hx]
          exact ⟨by simp, hnew.1⟩
      · rw [List.map_append, List.nodup_append_comm]
        exact List.nodup_cons.2 ⟨hnew.2, hnodup⟩
    · exact ⟨hold, hnodup⟩

theorem Holds.elected {el : Elector} {es : List ElectMsg} (h : Holds E el view (kept view es))
    (hE : E.Honest) (hmade : ∀ e ∈ es, ∃ j ∈ E.members, e = newElectMsg E j e.view)
    (hmany : E.hightThreshold ≤ (kept view es).length) : el.leaders view ≠ none := by
  obtain ⟨hmem, hnodup⟩ := kept_spec view es
  have hfirst : ∀ e ∈ (kept view es).take E.hightThreshold, e.author ∈ E.members ∧
      e.sigShare = E.tsSign e.author (E.sum256 (appendInt view)) := by
    intro e he
    obtain ⟨hes, hv⟩ := hmem e (List.mem_of_mem_take he)
    obtain ⟨j, hj, hej⟩ := hmade e hes
    have ha : e.author = j := congrArg ElectMsg.author hej
    refine ⟨ha ▸ hj, ?_⟩
    rw [ha, ← hv]
    exact congrArg ElectMsg.sigShare hej
  obtain ⟨qc, hqc⟩ := hE.combines (E.sum256 (appendInt view))
    (((kept view es).take E.hightThreshold).map ElectMsg.author)
    (hnodup.sublist ((List.take_sublist _ _).map _))
    (fun i hi => by
      obtain ⟨e, he, rfl⟩ := List.mem_map.1 hi
      exact (hfirst e he).1)
    (by rw [List.length_map, List.length_take, Nat.min_eq_left hmany])
  have hshares : ((kept view es).take E.hightThreshold).map ElectMsg.sigShare =
      (((kept view es).take E.hightThreshold).map ElectMsg.author).map
        fun i => E.tsSign i (E.sum256 (appendInt view)) := by
    rw [List.map_map]
    exact List.map_congr_left fun e he => (hfirst e he).2
  obtain ⟨leader, hleader⟩ := exists_leaderOf (E := E) (hE.long _ _ _ hqc)
  rw [h.leaders, if_pos hmany, outcome, hshares, hqc, Option.bind_some, hleader]
  exact Option.some_ne_none leader

end Elector

/-! ## The nodes that run -/

/-- The members that are not silent from the start. -/
def Env.live (E : Env D) : Finset NodeID := E.members.toFinset.filter fun i => E.faults ≤ i

theorem Env.mem_live {E : Env D} {i : NodeID} : i ∈ E.live ↔ i ∈ E.members ∧ E.faults ≤ i := by
  simp [Env.live]

theorem Env.live_subset (E : Env D) : E.live ⊆ E.members.toFinset := Finset.filter_subset _ _

theorem Env.hightThreshold_le_live {E : Env D} (hn : 1 ≤ E.n) (hf : E.faults ≤ E.tolerated) :
    E.hightThreshold ≤ E.live.card := by
  have hsub : E.lastNodes (E.n - E.tolerated) ⊆ E.live := by
    intro i hi
    obtain ⟨hm, hle⟩ := Finset.mem_filter.1 hi
    refine Finset.mem_filter.2 ⟨hm, ?_⟩
    have : E.tolerated ≤ E.n := by unfold Env.tolerated; omega
    omega
  have hcard := Finset.card_le_card hsub
  rw [E.card_lastNodes (Nat.sub_le _ _)] at hcard
  rw [E.hightThreshold_eq]
  unfold Env.tolerated at *
  omega

theorem BigCore.Tells.brings {E : Env D} {self i : NodeID} {o : NodeOut D} (ho : Tells E self o)
    (P : Msg D → Bool) : o.brings self i P = o.carries P := by
  cases hm : o.msg with
  | none =>
    cases o with
    | event e => rfl
    | _ => cases hm
  | some m =>
    rw [(ho m hm).1]
    rfl

namespace BigSPB

/-! ## What the instances are handed -/

/-- The proposer of `k` has sent this proposal for the instance at a height. -/
def Offered (w : NodeWorld D (BigJob D)) (k : Key) (height : ℕ) (p : ProposeMsg D) : Prop :=
  Msg.isPropose k height (.propose p) = true ∧
    ∃ o ∈ (w.host k.2).outs, o.msg = some (.propose p)

open Classical in
/-- The proposal for instance `k` at a height, if there is one. -/
noncomputable def offer (E : Env D) (w : NodeWorld D (BigJob D)) (k : Key) (height : ℕ) :
    ProposeMsg D :=
  if h : ∃ p, Offered w k height p then h.choose
  else newProposeMsg E k.2 ⟨k.2, k.1, height, ⟨-1, []⟩, none, []⟩

end BigSPB

namespace Orderly

open BigSPB

variable {E : Env D} {M : NodeMachine D (BigJob D)} {w : NodeWorld D (BigJob D)}
  (ho : Orderly M w)
include ho

theorem offer_eq {k : Key} {height : ℕ} {p : ProposeMsg D} (hk : k.2 ∈ M.hosts)
    (hp : Offered w k height p) : offer E w k height = p := by
  have hex : ∃ p, Offered w k height p := ⟨p, hp⟩
  obtain ⟨hP', o', ho', hmsg'⟩ := hex.choose_spec
  obtain ⟨hP, o, hom, hmsg⟩ := hp
  have hoo : o' = o := eq_of_countP_le_one (ho.once k.2 hk k.1 height) ho' hom
    (Out.carries_iff.2 ⟨_, hmsg', hP'⟩) (Out.carries_iff.2 ⟨_, hmsg, hP⟩)
  rw [offer, dif_pos hex]
  rw [hoo, hmsg] at hmsg'
  cases hmsg'
  rfl

theorem offered_of_backed {proposer : NodeID} {view : ℤ} {height : ℕ} {d : D} {b : Block D}
    (hb : Backed E M w proposer view height d b) :
    ∃ p, Offered w (view, proposer) height p ∧ p.b = b := by
  obtain ⟨o, hom, p, hmsg, hpb⟩ := hb.proposed
  obtain ⟨ha, -, hv, hh, -⟩ := ho.signed proposer hb.host o hom _ hmsg
  have ha : p.author = proposer := ha
  exact ⟨p, ⟨by simp [ha, hv, hh, hpb, hb.view_eq, hb.height_eq], o, hom, hmsg⟩, hpb⟩

theorem hash_of_backed {proposer : NodeID} {view : ℤ} {height : ℕ} {d : D} {b : Block D}
    (hb : Backed E M w proposer view height d b) :
    planned E (offer E w (view, proposer)) height = d := by
  obtain ⟨p, hp, hpb⟩ := ho.offered_of_backed hb
  rw [planned, ho.offer_eq hb.host hp, hpb, hb.hash]

end Orderly

namespace BigSPB

/-- **A run of honest nodes**: what they send they have made and sent to everybody, a node proposes one
block for a view and a height, the height-2 block follows the height-1 block, and what comes in is handed
on and counted. -/
structure Candid (E : Env D) (V : Rules D) (M : NodeMachine D (BigJob D))
    (w : NodeWorld D (BigJob D)) : Prop where
  hosts : M.hosts = E.members
  reach : M.Reach Machine.anyInput w
  orderly : Orderly M w
  voting : Voting E M w
  ballots : Ballots E M
  tells : ∀ i, ∀ o ∈ (w.host i).outs, BigCore.Tells E i o
  follows : ∀ i ∈ E.members, ∀ p, Msg.propose p ∈ (w.host i).received → p.height = HEIGHT_2 →
    Follows E V (offer E w (p.view, p.author)) p.b
  serves : ∀ i ∈ E.members, ∃ outs ⊆ (w.host i).outs, (code E i V).Serves
    ⟨(w.host i).st.spbInstances, (w.host i).st.tasks, (w.host i).received, outs⟩
  counted : ∀ i ∈ E.members, BigCore.Counted E (w.host i).received (w.host i).st

/-- Node `i` has nothing to do and nothing is on its way to it. -/
structure AtRest (w : NodeWorld D (BigJob D)) (i : NodeID) : Prop where
  booted : (w.host i).st.booted = true
  idle : (w.host i).st.pc = .idle
  tasks : (w.host i).st.tasks = []
  quiet : Machine.Quiet w i

/-- The books of instance `k` at node `i`, closed. -/
structure Books (E : Env D) (V : Rules D) (w : NodeWorld D (BigJob D)) (i : NodeID) (k : Key)
    (y : Pool Key (SPB D) (BigJob D) (BigJob D) (BigJob D × List (NodeOut D))) : Prop where
  serves : (serving E i V k).Serves y
  rest : y.tasks = []
  received : y.received = handedAt V k (w.host i).received
  inst : y.inst k = (w.host i).st.spbInstances k
  log : ∀ e ∈ y.outs, (∃ l, Handed i V l k e.1) ∧ ∀ o ∈ e.2, o ∈ (w.host i).outs

/-- The nodes of `S` have proposed both blocks of the view. -/
def Complete (E : Env D) (w : NodeWorld D (BigJob D)) (view : ℤ) (S : Finset NodeID) : Prop :=
  ∀ p ∈ S, p ∈ E.members ∧ ∀ height ≤ HEIGHT_2, ∃ q, Offered w (view, p) height q

namespace Candid

variable {E : Env D} {V : Rules D} {M : NodeMachine D (BigJob D)} {w : NodeWorld D (BigJob D)}
  (hC : Candid E V M w)
include hC

theorem host {i : NodeID} (hi : i ∈ E.members) : i ∈ M.hosts := hC.hosts ▸ hi

theorem offered_of_received {i : NodeID} (hi : i ∈ E.members) {p : ProposeMsg D}
    (hp : Msg.propose p ∈ (w.host i).received) :
    p.author ∈ E.members ∧ Offered w (p.view, p.author) p.height p := by
  obtain ⟨j, hj, o, ho, hmsg⟩ := hC.reach.sender (hC.host hi) hp
  have hmsg := Out.msg_of_msgTo hmsg
  have ha : p.author = j := (hC.orderly.signed j hj o ho _ hmsg).1
  exact ⟨ha ▸ hC.hosts ▸ hj, by simp, o, ha ▸ ho, hmsg⟩

/-- **What an instance is handed**: the proposals of its proposer, and votes for them. -/
theorem intake {i : NodeID} (hi : i ∈ E.members) (k : Key) :
    Intake E V k (offer E w k) (handedAt V k (w.host i).received) where
  isMessage j hj := by
    obtain ⟨-, m, -, hs⟩ := mem_handedAt hj
    cases m <;> simp_all [spawn, BigSPB.isMessage]
  fits j hj := by
    obtain ⟨hr, m, hm, hs⟩ := mem_handedAt hj
    cases m with
    | propose p =>
      obtain ⟨rfl, rfl⟩ := Prod.mk.inj (List.mem_singleton.1 hs)
      obtain ⟨ha, hoff⟩ := hC.offered_of_received hi hm
      exact ⟨(hC.orderly.proper_of_received hC.reach (hC.host hi) _ hm).2.2.2,
        (hC.orderly.offer_eq (hC.host ha) hoff).symm, hC.follows i hi p hm⟩
    | vote v =>
      obtain ⟨rfl, rfl⟩ := Prod.mk.inj (List.mem_singleton.1 hs)
      obtain ⟨b, hb⟩ := hC.voting.backed_of_received hC.orderly hC.reach (hC.host hi) hm
      obtain ⟨o, ho, p, hmsg, hpb⟩ := hb.proposed
      obtain ⟨-, -, -, hh, hle⟩ := hC.orderly.signed v.proposer hb.host o ho _ hmsg
      refine ⟨?_, (hC.orderly.hash_of_backed hb).symm⟩
      rw [← hb.height_eq, ← hpb, ← hh]
      exact hle
    | speedVote sv =>
      obtain ⟨-, rfl⟩ := Prod.mk.inj (List.mem_singleton.1 hs)
      have hr : sv.proposer = k.2 ∧ sv.view = k.1 := of_decide_eq_true hr
      exact hr
    | _ => exact absurd hs List.not_mem_nil
  once height := by
    rw [countP_toVote_handedAt]
    exact hC.orderly.propose_le_one hC.reach k height (hC.host hi)

theorem madeBy_of_received {i : NodeID} (hi : i ∈ E.members) {m : Msg D}
    (hm : m ∈ (w.host i).received) : ∃ j ∈ E.members, m.MadeBy E j := by
  obtain ⟨j, hj, o, ho, hmsg⟩ := hC.reach.sender (hC.host hi) hm
  exact ⟨j, hC.hosts ▸ hj, (hC.tells j o ho m (Out.msg_of_msgTo hmsg)).2⟩

/-! ## Nodes at rest -/

section Rest

variable (hrest : ∀ i ∈ E.live, AtRest w i)
include hrest

theorem received_of_sent {i j : NodeID} (hi : i ∈ E.live) (hj : j ∈ E.members) {o : NodeOut D}
    (ho : o ∈ (w.host j).outs) {m : Msg D} (hm : o.msg = some m) : m ∈ (w.host i).received := by
  have hb := (hC.tells j o ho m hm).1
  exact (hrest i hi).quiet.received hC.reach (hC.host (Env.mem_live.1 hi).1) (hC.host hj) ho
    (by rw [hb]; rfl)

theorem received_pos {i j : NodeID} (hi : i ∈ E.live) (hj : j ∈ E.members) {P : Msg D → Bool}
    (h : ∃ o ∈ (w.host j).outs, o.carries P = true) : 0 < (w.host i).received.countP P := by
  obtain ⟨o, ho, hc⟩ := h
  obtain ⟨m, hm, hP⟩ := Out.carries_iff.1 hc
  exact List.countP_pos_iff.2 ⟨m, hC.received_of_sent hrest hi hj ho hm, hP⟩

theorem quorum_of_sent (hq : E.hightThreshold ≤ E.live.card) {i : NodeID} (hi : i ∈ E.live)
    {P : Msg D → Bool} (h : ∀ j ∈ E.live, ∃ o ∈ (w.host j).outs, o.carries P = true) :
    E.hightThreshold ≤ (w.host i).received.countP P := by
  have hsub : E.live ⊆ M.hosts.toFinset := hC.hosts.symm ▸ E.live_subset
  refine hq.trans ((hrest i hi).quiet.card_le hC.reach (hC.host (Env.mem_live.1 hi).1) hsub
    fun j hj => ?_)
  obtain ⟨o, ho, hc⟩ := h j hj
  exact ⟨o, ho, by rw [(hC.tells j o ho).brings]; exact hc⟩

theorem exists_books {i : NodeID} (hi : i ∈ E.live) (k : Key) : ∃ y, Books E V w i k y := by
  obtain ⟨outs, hsub, hx⟩ := hC.serves i (Env.mem_live.1 hi).1
  obtain ⟨log, hy, hlog⟩ := serves_at hx k
  refine ⟨_, hy, ?_, rfl, ?_, fun e he => ⟨(hlog e he).1, fun o ho => hsub ((hlog e he).2 o ho)⟩⟩
  · dsimp only
    rw [(hrest i hi).tasks]
    rfl
  · simp

omit hrest in
theorem books_intake {i : NodeID} (hi : i ∈ E.live) {k : Key}
    {y : Pool Key (SPB D) (BigJob D) (BigJob D) (BigJob D × List (NodeOut D))}
    (hy : Books E V w i k y) : Intake E V k (offer E w k) y.received :=
  hy.received ▸ hC.intake (Env.mem_live.1 hi).1 k

theorem replayed {i : NodeID} (hi : i ∈ E.live) {k : Key} (hk : k.2 ∈ E.members)
    {y : Pool Key (SPB D) (BigJob D) (BigJob D) (BigJob D × List (NodeOut D))}
    (hy : Books E V w i k y) {height : ℕ} (hh : height ≤ HEIGHT_2)
    (hp : ∃ p, Offered w k height p) (h₁ : ∃ p, Offered w k HEIGHT_1 p) :
    0 < y.outs.countP (done (isReplay height)) := by
  have hr := hC.books_intake hi hy
  have hcome {height : ℕ} (h : ∃ p, Offered w k height p) :
      0 < y.received.countP (toVote height) := by
    obtain ⟨p, hP, o, ho, hm⟩ := h
    rw [hy.received, countP_toVote_handedAt]
    exact hC.received_pos hrest hi hk ⟨o, ho, Out.carries_iff.2 ⟨_, hm, hP⟩⟩
  rcases height_cases hh with rfl | rfl
  · exact replayed_first hy.serves hr hy.rest (hcome h₁)
  · exact replayed_second hy.serves hr hy.rest (hcome h₁) (hcome hp)

/-- **A proposal has been voted for** by every live node, -/
theorem voted {i : NodeID} (hi : i ∈ E.live) {k : Key} (hk : k.2 ∈ E.members) {height : ℕ}
    (hh : height ≤ HEIGHT_2) (hp : ∃ p, Offered w k height p) (h₁ : ∃ p, Offered w k HEIGHT_1 p) :
    ∃ o ∈ (w.host i).outs, o.carries (Msg.isVote k height) = true := by
  obtain ⟨y, hy⟩ := hC.exists_books hrest hi k
  obtain ⟨⟨j, os⟩, he, hd⟩ := List.countP_pos_iff.1 (hC.replayed hrest hi hk hy hh hp h₁)
  obtain ⟨hfit, s, s', js, hstep⟩ := (serving_fits hy.serves.run (hC.books_intake hi hy)).2.2 _ he
  have hd : isReplay height j = true := hd
  obtain ⟨p, hp⟩ := hp
  cases j with
  | replay q =>
    have hq : q.height = height := of_decide_eq_true hd
    have hqp : q = p := by rw [hfit.2.1, hq, hC.orderly.offer_eq (hC.host hk) hp]
    obtain ⟨hP, o, ho, hm⟩ := hp
    obtain ⟨-, hproper⟩ := hC.orderly.signed k.2 (hC.host hk) o ho _ hm
    cases hstep with
    | crash _ hpan => exact hpan.elim
    | replay _ =>
      refine ⟨_, (hy.log _ he).2 _ (List.mem_singleton_self _), ?_⟩
      rw [Out.carries_bcast, hqp, isVote_newVoteMsg hproper]
      exact hP
  | _ => cases hd

section Quorum

variable (hq : E.hightThreshold ≤ E.live.card)
include hq

/-- so that every live node has made its certificate. -/
theorem certified {i : NodeID} (hi : i ∈ E.live) {k : Key} (hk : k.2 ∈ E.members) {height : ℕ}
    (hh : height ≤ HEIGHT_2) (hp : ∃ p, Offered w k height p) (h₁ : ∃ p, Offered w k HEIGHT_1 p) :
    ((w.host i).st.spbInstances k).blockQcs height ≠ none := by
  obtain ⟨y, hy⟩ := hC.exists_books hrest hi k
  rw [← hy.inst]
  refine certified_of_votes hy.serves (hC.books_intake hi hy) hy.rest hh
    (hC.replayed hrest hi hk hy hh hp h₁) ?_
  rw [hy.received, countP_toCount_handedAt]
  exact hC.quorum_of_sent hrest hq hi fun j hj => hC.voted hrest hj hk hh hp h₁

/-- **Every live node has cast its speed vote** for a proposer of both blocks. -/
theorem speedVoted {i : NodeID} (hi : i ∈ E.live) {k : Key} (hk : k.2 ∈ E.members)
    (hboth : ∀ height ≤ HEIGHT_2, ∃ p, Offered w k height p) :
    ∃ o ∈ (w.host i).outs, ∃ sv, o.msg = some (.speedVote sv) ∧ sv.author = i ∧
      (sv.view, sv.proposer) = k := by
  obtain ⟨y, hy⟩ := hC.exists_books hrest hi k
  have hr := hC.books_intake hi hy
  have hqc := hC.certified hrest hq hi hk le_rfl (hboth _ le_rfl) (hboth _ (Nat.zero_le _))
  rw [← hy.inst] at hqc
  have hdone := certify_done hy.serves hr HEIGHT_2
  rw [Option.isSome_iff_ne_none.2 hqc] at hdone
  obtain ⟨⟨j, os⟩, he, hd⟩ := List.countP_pos_iff.1 (hdone.symm ▸ Nat.one_pos :
    0 < y.outs.countP (done (toCertify HEIGHT_2)))
  obtain ⟨-, s, s', js, hstep⟩ := (serving_fits hy.serves.run hr).2.2 _ he
  obtain ⟨⟨l, hj⟩, hsent⟩ := hy.log _ he
  have hd : toCertify HEIGHT_2 j = true := hd
  cases j with
  | quorum v =>
    have hv : v.height = HEIGHT_2 := of_decide_eq_true hd
    obtain ⟨-, rfl, -⟩ := hj
    cases hstep with
    | crash _ hpan => exact hpan.elim
    | quorumFirst _ h => exact absurd (h.symm.trans hv) (by decide)
    | quorumSecond _ _ => exact ⟨_, hsent _ (List.mem_singleton_self _), _, rfl, rfl, rfl⟩
    | quorumOther _ _ h => exact absurd hv h
  | _ => cases hd

/-! ### The election -/

section Complete

variable {view : ℤ} {S : Finset NodeID} (hS : E.hightThreshold ≤ S.card)
  (hall : Complete E w view S)
include hS hall

/-- **Every live node has opened the election** of a view in which a quorum has proposed both blocks, -/
theorem opened {i : NodeID} (hi : i ∈ E.live) :
    ∃ o ∈ (w.host i).outs, o.carries (Msg.isElect view) = true := by
  have hm := (Env.mem_live.1 hi).1
  refine hC.ballots.elect_of_le (hC.reach.local i) (hS.trans ?_)
  rw [(hC.counted i hm).speedVotes]
  refine card_le_countP (f := Msg.proposerOf) fun p hp => ?_
  obtain ⟨hpm, hboth⟩ := hall p hp
  obtain ⟨o, ho, sv, hmsg, ha, hk⟩ := hC.speedVoted hrest hq hi (k := (view, p)) hpm hboth
  obtain ⟨hv, hprop⟩ := Prod.mk.inj hk
  exact ⟨_, hC.received_of_sent hrest hi hm ho hmsg, by simp [hv, ha], hprop⟩

/-- **and its elector knows the leader.** -/
theorem led (hE : E.Honest) {i : NodeID} (hi : i ∈ E.live) :
    (w.host i).st.eletor.leaders view ≠ none := by
  have hm := (Env.mem_live.1 hi).1
  have hmade : ∀ e ∈ BigCore.shares (w.host i).received, ∃ j ∈ E.members,
      e = newElectMsg E j e.view := by
    intro e he
    exact hC.madeBy_of_received hm (BigCore.mem_shares.1 he)
  refine ((hC.counted i hm).elects view).elected hE hmade ?_
  refine hq.trans (card_le_countP (f := ElectMsg.author) (P := fun _ => true) fun j hj => ?_) |>.trans
    List.countP_le_length
  obtain ⟨o, ho, hc⟩ := hC.opened hrest hq hS hall hj
  obtain ⟨m, hmsg, hP⟩ := Out.carries_iff.1 hc
  cases m with
  | elect e =>
    have hrec := hC.received_of_sent hrest hi (Env.mem_live.1 hj).1 ho hmsg
    have ha : e.author = j := (hC.tells j o ho _ hmsg).2.author
    have hkept := Elector.author_mem_kept (BigCore.mem_shares.2 hrec) (of_decide_eq_true hP)
    obtain ⟨e', he', hae⟩ := List.mem_map.1 hkept
    exact ⟨e', he', rfl, hae.trans ha⟩
  | _ => cases hP

end Complete

end Quorum

end Rest

end Candid

end BigSPB

/-! ## Steps that can be taken -/

theorem Commitor.full_of_commit {cm : Commitor D} {b : Block D} (h : cm.commit b = none) :
    chanCap ≤ cm.blocksChan.length := by
  unfold Commitor.commit at h
  split at h
  · cases h
  · split at h
    · cases h
    · next hlen => exact not_lt.1 hlen

theorem Commitor.work_of_commit {cm cm' : Commitor D} {b : Block D} (h : cm.commit b = some cm') :
    cm'.work = cm.work := by
  unfold Commitor.commit at h
  split at h
  · cases h
    rfl
  · split at h
    · cases h
      rfl
    · cases h

/-- `processCoin` goes on, or waits in `Commit` for room on the channel. -/
theorem Node.exists_stepCoin {J : Type} {c : Node D J} (second : Node D J → NodeID → ℤ → Bool)
    (hidle : c.pc ≠ .idle) (hreport : ∀ leader view, c.pc ≠ .report leader view)
    (hgather : ∀ view height i refs, c.pc ≠ .gather view height i refs) :
    (∃ r, c.stepCoin second = some r) ∨ (∃ leader view height b, c.pc = .commit leader view height b) ∧
      chanCap ≤ c.commitor.blocksChan.length := by
  unfold Node.stepCoin
  cases hpc : c.pc with
  | idle => exact absurd hpc hidle
  | gather view height i refs => exact absurd hpc (hgather view height i refs)
  | report leader view => exact absurd hpc (hreport leader view)
  | coin leader view =>
    dsimp only
    split <;> exact Or.inl ⟨_, rfl⟩
  | decide leader view =>
    dsimp only
    split <;> exact Or.inl ⟨_, rfl⟩
  | fetch leader view height =>
    dsimp only
    split <;> exact Or.inl ⟨_, rfl⟩
  | commit leader view height b =>
    dsimp only
    split
    · next hnone => exact Or.inr ⟨⟨leader, view, height, b, rfl⟩, Commitor.full_of_commit hnone⟩
    · exact Or.inl ⟨_, rfl⟩

/-! ## Where nothing moves -/

/-- Node `i` has something to do that `counts`, or a message has come that it can take. -/
def CanMove {J : Type} (M : NodeMachine D J) (counts : Node D J → Act → Prop) (w : NodeWorld D J)
    (i : NodeID) : Prop :=
  (∃ a r, counts (w.host i).st a ∧ M.act i (w.host i).st a = some r) ∨
    ∃ m r, (i, m) ∈ w.net ∧ M.recv i (w.host i).st m = some r

end S2Pac
