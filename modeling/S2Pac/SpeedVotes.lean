import S2Pac.BigSPB.Buffers
import S2Pac.Conduct
import S2Pac.DAGBigCore.History

/-!
# Which speed votes an instance counts

The handlers of the big protocols drop nothing that they have accepted, so that the instances are served
with all of it (`Conducts.serves`), and where no goroutine of an instance is left every speed vote that it
was handed has been counted once there is a height-2 certificate (`speedCert_of_rest`).

`BigCore` looks the instance up by the author of the speed vote, while the instance takes only those that
name it as their proposer: `SpeedCert()` of instance `(v, p)` comes true for speed votes of `p` alone. The
DAG variant looks it up by the proposer (`speedCert_iff`).
-/

set_option linter.unusedSectionVars false

namespace S2Pac

open Lib

variable {D : Type} [DecidableEq D]

/-! ## A node that drops nothing it has accepted -/

namespace Conducts

variable {E : Env D} {docG : Bool} {V : BigSPB.Rules D} {second : BigNode D → NodeID → ℤ → Bool}
  {M : NodeMachine D (BigJob D)}
  {G : Machine.Guard NodeID (BigNode D) (Msg D) Act (Event D)} {self : NodeID}
  {h : NodeHost D (BigJob D)}

/-- **The instances are served with all that the node has accepted**, when its handlers start a goroutine
for every accepted message. -/
theorem serves
    (hM : Conducts E docG (BigSPB.spawn V) (fun i => BigSPB.JobStep E i V) second M)
    (htakes : ∀ i c m r, M.recv i c m = some r → m.passes E docG = true →
      r.1.tasks = c.tasks ++ BigSPB.spawn V m) (hl : M.Local G self h) :
    ∃ outs, (BigSPB.code E self V).Serves
      ⟨h.st.spbInstances, h.st.tasks, h.received.filter (Msg.passes E docG), outs⟩ := by
  induction hl with
  | start =>
    rw [Machine.start, hM.init]
    exact ⟨[], PoolCode.Serves.start⟩
  | @recv h m s o _ _ hs ih =>
    obtain ⟨outs, ih⟩ := ih
    refine ⟨outs, ?_⟩
    have hstep := hM.recv _ _ _ _ hs
    have hspb : s.spbInstances = h.st.spbInstances := hstep.spb
    by_cases hp : m.passes E docG = true
    · have htasks : s.tasks = h.st.tasks ++ BigSPB.spawn V m := htakes _ _ _ _ hs hp
      rw [List.filter_append, List.filter_cons_of_pos hp, List.filter_nil, hspb, htasks]
      exact ih.recv m
    · have htasks : s.tasks = h.st.tasks := hstep.tasks.resolve_right fun h => hp h.1
      rw [List.filter_append, List.filter_cons_of_neg hp, List.filter_nil, List.append_nil, hspb,
        htasks]
      exact ih
  | @act h a s o _ _ hs ih =>
    obtain ⟨outs, ih⟩ := ih
    have still (hspb : s.spbInstances = h.st.spbInstances) (htasks : s.tasks = h.st.tasks) :
        ∃ outs, (BigSPB.code E self V).Serves
          ⟨s.spbInstances, s.tasks, h.received.filter (Msg.passes E docG), outs⟩ := by
      rw [hspb, htasks]
      exact ⟨outs, ih⟩
    cases hM.act _ _ _ _ hs with
    | task _ hi hstep hspb htasks _ =>
      have hjob := ih.job hi hstep
      dsimp only at hspb htasks ⊢
      rw [hspb, htasks]
      exact ⟨_, hjob⟩
    | coin _ hc =>
      cases hc <;> exact still rfl rfl
    | commitor _ hr =>
      cases hr
      exact still rfl rfl
    | rest _ hspb htasks => exact still hspb htasks

end Conducts

/-- The big protocols start the goroutines of every accepted message. -/
theorem Handling.takes {E : Env D} {self : NodeID} {V : Variant} {rules : BigSPB.Rules D}
    {has : BigJob D → Prop} {c c' : BigNode D} {m : Msg D} {os : List (NodeOut D)}
    (h : Handling E self V (BigSPB.goroutines E rules has) c m c' os) (hV : V ≠ .lean)
    (hp : m.passes E V.docG = true) : c'.tasks = c.tasks ++ BigSPB.spawn rules m := by
  cases h with
  | ignored hm =>
    have hno := (hm hp).2.resolve_left hV
    cases m with
    | finVote _ | randomCoin _ => exact (List.append_nil _).symm
    | _ => exact hno.elim
  | panics hf =>
    rcases hf.of_passes hp with ⟨e, rfl, -⟩ | ⟨r, rfl, -⟩ <;> exact (List.append_nil _).symm
  | propose _ | vote _ | counted _ _ => rfl
  | stale hlean _ | finVote hlean _ | speedVote hlean _ => exact absurd hlean hV
  | _ => exact (List.append_nil _).symm

theorem BigCore.takes {E : Env D} {self : NodeID} {c : BigNode D} {m : Msg D} {r : BigMoved D}
    (h : recv E self c m = some r) (hp : m.passes E false = true) :
    r.1.tasks = c.tasks ++ BigSPB.spawn BigSPB.bigRules m :=
  ((branches E).recv self c m r h).2.takes (by simp) hp

theorem DAGBigCore.takes {E : Env D} {self : NodeID} {c : BigNode D} {m : Msg D} {r : BigMoved D}
    (h : recv E self c m = some r) (hp : m.passes E true = true) :
    r.1.tasks = c.tasks ++ BigSPB.spawn BigSPB.dagRules m :=
  ((branches E).recv self c m r h).2.takes (by simp) hp

/-! ## The speed votes of an instance -/

namespace BigSPB

variable {E : Env D} {self : NodeID} {V : Rules D} {k : Key}
  {x : Pool Key (SPB D) (BigJob D) (Msg D) (NodeOut D)}

theorem speedBuffer_at (hx : (code E self V).Run x) (k : Key) :
    ∀ sv ∈ (x.inst k).unHandleSpeedVote, (sv.view, sv.proposer) = k := by
  refine hx.inst_induction (R := fun _ => True)
    (B := fun k s => ∀ sv ∈ s.unHandleSpeedVote, (sv.view, sv.proposer) = k)
    (fun _ _ _ => trivial) (fun _ _ hsv => absurd hsv List.not_mem_nil) ?_ trivial k
  intro x _ _ k j s' js os _ hstep hbuf
  cases hstep with
  | speedWait sv hp hv _ =>
    intro sv' hsv'
    rcases List.mem_append.1 hsv' with hsv' | hsv'
    · exact hbuf sv' hsv'
    · rw [List.mem_singleton.1 hsv', hp, hv]
  | _ => exact hbuf

/-- **Where the speed votes of an instance are**: counted, with a goroutine, or in the buffer while there
is no height-2 certificate and then until the buffer has been replayed. -/
theorem speedVotes_kept (hx : (code E self V).Serves x) (k : Key) :
    (x.inst k).speedVoteNums + (if ((x.inst k).blockQcs HEIGHT_2).isSome then
        pending x.tasks k toReplaySpeed * (x.inst k).unHandleSpeedVote.length
      else (x.inst k).unHandleSpeedVote.length) + pending x.tasks k (toSpeedCount k) =
      x.received.countP (isSpeedVoteAt V k) := by
  have h := hx.balance_marked (R := fun _ => True) (fun _ _ _ => trivial) k (M := toReplaySpeed)
    (W := fun _ n s => s.speedVoteNums + if (s.blockQcs HEIGHT_2).isSome then
      n * s.unHandleSpeedVote.length else s.unHandleSpeedVote.length) (K := fun _ => 0)
    (Q := toSpeedCount k) (O := fun _ => false) (P := isSpeedVoteAt V k) rfl ?_ ?_ ?_
    (fun _ _ _ _ _ _ _ _ _ _ _ => ⟨by simp, fun _ => rfl⟩) trivial
  · simpa using h
  · intro l m _
    cases m <;> simp [code, spawn, pending]
  · intro l m _
    cases m with
    | speedVote sv =>
      by_cases hk : V.speedKey sv = k <;> simp [code, spawn, pending, hk]
    | _ => simp [code, spawn, pending]
  · intro x hx _ j s' js os n hj hstep hn _
    cases hstep with
    | crash _ hp =>
      obtain ⟨hs, hr, -⟩ := hp.not_speed (k := k)
      rw [hs, hr]
      simp
    | replay p =>
      rw [countP_waiting (fun _ _ _ => rfl) fun _ _ => rfl,
        countP_waiting (fun _ _ _ => rfl) fun _ _ => rfl]
      simp
    | quorumFirst v hv =>
      rw [countP_next rfl fun _ => rfl, countP_next rfl fun _ => rfl]
      simp [hv]
    | quorumSecond v hv =>
      obtain ⟨hnone, hzero⟩ := fresh_of_quorum hx.run hj hv
      have hn0 : n = 0 := by omega
      simp [hv, hn0, hnone]
    | quorumOther v h₁ h₂ => simp [Function.update_of_ne (Ne.symm h₂)]
    | replaySpeed =>
      have hs : ((x.inst k).blockQcs HEIGHT_2).isSome :=
        certified_of_pending hx.run (by rw [hn]; simp)
      have hall : ((x.inst k).unHandleSpeedVote.map BigJob.speedVote).countP (toSpeedCount k) =
          (x.inst k).unHandleSpeedVote.length := by
        rw [List.countP_map]
        exact List.countP_eq_length.2 fun sv hsv => decide_eq_true (speedBuffer_at hx.run k sv hsv)
      have hmark : ((x.inst k).unHandleSpeedVote.map BigJob.speedVote).countP toReplaySpeed = 0 := by
        simp [List.countP_map, Function.comp_def]
      rw [hall, hmark]
      simp [hs, Nat.add_mul, Nat.add_assoc]
    | speedDrop sv hno =>
      have hk : (sv.view, sv.proposer) ≠ k := by
        rintro rfl
        exact hno.elim (· rfl) (· rfl)
      simp [hk]
    | speedWait sv hp hv hno => simp [hp, hv, hno, Nat.add_assoc]
    | speedVote sv hp hv hn => simp [hp, hv]
    | speedCount =>
      simp
      omega
    | _ => simp

/-- **When an instance at rest is speedily certified.** -/
theorem speedCert_of_rest (hx : (code E self V).Serves x) (hrest : ∀ j, (k, j) ∉ x.tasks)
    (hqc : (x.inst k).blockQcs HEIGHT_2 ≠ none) :
    (x.inst k).speedCert = true ↔
      E.hightThreshold ≤ x.received.countP (isSpeedVoteAt V k) := by
  have hpending (Q : BigJob D → Bool) : pending x.tasks k Q = 0 := by
    refine List.countP_eq_zero.2 ?_
    rintro ⟨k', j⟩ ht hq
    obtain ⟨rfl, -⟩ : k' = k ∧ Q j = true := by simpa using hq
    exact hrest j ht
  have hkept := speedVotes_kept hx k
  rw [Option.isSome_iff_ne_none.2 hqc, hpending, hpending, if_pos rfl, Nat.zero_mul, Nat.add_zero]
    at hkept
  have hmarked := speedCert_marked (k := k) (R := fun _ => True) rfl (fun _ _ _ _ _ hs => ⟨_, hs⟩)
    (fun _ _ _ => trivial) (fun _ m _ => by cases m <;> simp [code, spawn, pending]) hx trivial
  rw [hpending, hkept, Nat.add_zero] at hmarked
  show (x.inst k).isSpeedCert = true ↔ _
  cases hs : (x.inst k).isSpeedCert <;> rw [hs] at hmarked <;> split at hmarked <;> simp_all

end BigSPB

/-- The big protocol hands a speed vote to the instance of its author, -/
theorem isSpeedVoteAt_big (v : ℤ) (p : NodeID) (m : Msg D) :
    BigSPB.isSpeedVoteAt BigSPB.bigRules (v, p) m =
      (m.isSpeedVote (v, p) && decide (m.author = p)) := by
  cases m with
  | speedVote sv =>
    rw [Bool.eq_iff_iff]
    simp only [BigSPB.isSpeedVoteAt, BigSPB.bigRules, Msg.isSpeedVote, Msg.author, Prod.mk.injEq,
      Bool.and_eq_true, decide_eq_true_eq]
    exact ⟨fun h => ⟨h.1, decide_eq_true h.2.2⟩, fun h => ⟨h.1, h.1.1, of_decide_eq_true h.2⟩⟩
  | _ => rfl

/-- the DAG variant to that of its proposer. -/
theorem isSpeedVoteAt_dag (k : Key) (m : Msg D) :
    BigSPB.isSpeedVoteAt BigSPB.dagRules k m = m.isSpeedVote k := by
  cases m with
  | speedVote sv => simp [BigSPB.dagRules]
  | _ => rfl

open BigSPB in
/-- **Which speed votes certify an instance.** Where node `self` has made the height-2 certificate of
instance `(v, p)` and no goroutine of the instance is left, `SpeedCert()` is true in the big protocol if
and only if the node has accepted `HightThreshold()` speed votes for the instance that are by `p`, and in
the DAG variant if and only if it has accepted so many for the instance. -/
theorem speedCert_iff (E : Env D) :
    (∀ self (h : NodeHost D (BigJob D)), (BigCore.machine E).Local Machine.anyInput self h → ∀ v p,
      (h.st.spbInstances (v, p)).blockQcs HEIGHT_2 ≠ none → (∀ j, ((v, p), j) ∉ h.st.tasks) →
      ((h.st.spbInstances (v, p)).speedCert = true ↔
        E.hightThreshold ≤ (h.received.filter (Msg.passes E false)).countP fun m =>
          m.isSpeedVote (v, p) && decide (m.author = p))) ∧
    ∀ self (h : NodeHost D (BigJob D)), (DAGBigCore.machine E).Local Machine.anyInput self h → ∀ v p,
      (h.st.spbInstances (v, p)).blockQcs HEIGHT_2 ≠ none → (∀ j, ((v, p), j) ∉ h.st.tasks) →
      ((h.st.spbInstances (v, p)).speedCert = true ↔
        E.hightThreshold ≤ (h.received.filter (Msg.passes E true)).countP
          (Msg.isSpeedVote (v, p))) := by
  constructor
  · intro self h hl v p hqc hrest
    obtain ⟨outs, hx⟩ := (BigCore.conducts E).serves (fun _ _ _ _ => BigCore.takes) hl
    have hcert := speedCert_of_rest hx hrest hqc
    rwa [List.countP_congr fun m _ => by rw [isSpeedVoteAt_big]] at hcert
  · intro self h hl v p hqc hrest
    obtain ⟨outs, hx⟩ := (DAGBigCore.conducts E).serves (fun _ _ _ _ => DAGBigCore.takes) hl
    have hcert := speedCert_of_rest hx hrest hqc
    rwa [List.countP_congr fun m _ => by rw [isSpeedVoteAt_dag]] at hcert

namespace BigRun

/-- Nodes 0, 1 and 2 have certified their blocks of view 0, and node 0 has handled its own three speed
votes. Then it handles the other two for its own block. -/
def others : List (NodeOrder ℕ) :=
  bootFour ++ round 0 ++ List.replicate 2 (.deliver 0 (Msg.isSpeedVote (0, 0))) ++ again 0 (.task 0) 8

def othersWorld : NodeWorld ℕ (BigJob ℕ) :=
  (BigCore.machine (Env.plain 4 fun _ => 0)).play Machine.anyInput
    (BigCore.machine (Env.plain 4 fun _ => 0)).world others

/-- The speed vote of node 0 for its own block, as it has received it, -/
def ownSpeedVote : List (Input (Msg ℕ) Act) :=
  ((othersWorld.host 0).received.filter fun m => m.isSpeedVote (0, 0) && decide (m.author = 0)).map .recv

/-- and node 0 after it has come twice more. -/
def repeated : NodeHost ℕ (BigJob ℕ) :=
  (BigCore.machine (Env.plain 4 fun _ => 0)).feed Machine.anyInput 0 (othersWorld.host 0)
    (ownSpeedVote ++ ownSpeedVote ++ List.replicate 8 (.act (.task 0)))

theorem repeated_local : (BigCore.machine (Env.plain 4 fun _ => 0)).Local Machine.anyInput 0 repeated := by
  have hw : (BigCore.machine (Env.plain 4 fun _ => 0)).Reach Machine.anyInput othersWorld :=
    Machine.play_sound _ others
  have hl : (BigCore.machine (Env.plain 4 fun _ => 0)).Local Machine.anyInput 0 (othersWorld.host 0) :=
    hw.local 0
  exact hl.steps (Machine.feed_sound _ _ _)

end BigRun

/-- Node 0 of the big protocol, to which its own speed vote has come twice more, and node 0 of the DAG
variant, both of four. -/
theorem speedCert_iff_runs :
    (BigRun.repeated.st.spbInstances (0, 0)).speedCert = true ∧
      ((DagRun.promptWorld.host 0).st.spbInstances (0, 0)).speedCert = true := by
  have hl₂ : (DAGBigCore.machine (Env.plain 4 fun _ => 0)).Local Machine.anyInput 0
      (DagRun.promptWorld.host 0) := DagRun.promptWorld_reach.local 0
  -- the certificate is there, the goroutines are done, and there are enough speed votes
  have hspec₁ : (BigRun.repeated.st.spbInstances (0, 0)).blockQcs HEIGHT_2 ≠ none ∧
      (∀ t ∈ BigRun.repeated.st.tasks, t.1 ≠ (0, 0)) ∧
      (Env.plain 4 fun _ => 0).hightThreshold ≤
        (BigRun.repeated.received.filter (Msg.passes (Env.plain 4 fun _ => 0) false)).countP
          fun m => m.isSpeedVote (0, 0) && decide (m.author = 0) := by
    decide +kernel
  have hspec₂ : ((DagRun.promptWorld.host 0).st.spbInstances (0, 0)).blockQcs HEIGHT_2 ≠ none ∧
      (∀ t ∈ (DagRun.promptWorld.host 0).st.tasks, t.1 ≠ (0, 0)) ∧
      (Env.plain 4 fun _ => 0).hightThreshold ≤ ((DagRun.promptWorld.host 0).received.filter
        (Msg.passes (Env.plain 4 fun _ => 0) true)).countP (Msg.isSpeedVote (0, 0)) := by
    decide +kernel
  constructor
  · exact ((speedCert_iff _).1 0 _ BigRun.repeated_local 0 0 hspec₁.1
      fun j hj => hspec₁.2.1 _ hj rfl).2 hspec₁.2.2
  · exact ((speedCert_iff _).2 0 _ hl₂ 0 0 hspec₂.1 fun j hj => hspec₂.2.1 _ hj rfl).2 hspec₂.2.2

/-- **The speed path of the big protocol is not complete.** Node 0 has made the height-2 certificate of
instance `(0, 0)` and has handled speed votes for it by the nodes 0, 1 and 2. No goroutine of the instance
is left, and `SpeedCert()` is false. -/
theorem speed_votes_misrouted :
    ∃ (E : Env ℕ) (w : NodeWorld ℕ (BigJob ℕ)) (authors : List NodeID),
      (BigCore.machine E).Reach Machine.anyInput w ∧
      ((w.host 0).st.spbInstances (0, 0)).blockQcs HEIGHT_2 ≠ none ∧ authors.Nodup ∧
      E.hightThreshold ≤ authors.length ∧
      (∀ a ∈ authors, ∃ m ∈ (w.host 0).received, m.passes E false = true ∧
        m.isSpeedVote (0, 0) = true ∧ m.author = a) ∧
      (∀ t ∈ (w.host 0).st.tasks, t.1 ≠ (0, 0)) ∧
      ((w.host 0).st.spbInstances (0, 0)).speedCert = false := by
  refine ⟨Env.plain 4 fun _ => 0, BigRun.othersWorld, [0, 1, 2], Machine.play_sound _ _, ?_⟩
  decide +kernel

end S2Pac
