import S2Pac.BigCore.Agreement
import S2Pac.Core.Agreement
import S2Pac.DAGBigCore.Rounds
import S2Pac.Emitted

/-!
# From the pool to the log

`generatorBlock` takes a batch off the channel of the pool and puts it into a block; `make` has given it the
id `Id + N·k`. So the batches of a node are proposed, each of them once (`Spends.fifo`), and as a commitor
emits a block once, a batch is committed once: whatever the coin, the votes and the order of the messages, no
log has a batch twice, and what it has was made by the pool of the node that the block names
(`batches_committed_once`).

Taking a batch and sending the proposal are one step here. In the lean and the big protocol `Run` and the
goroutines of the instances both propose, and between `GetBatch` and `Send` one can overtake another; the
results about these two say nothing of the order. In the DAG variant only `Run` proposes, and the batches go
out in the order in which they were made.
-/

set_option linter.unusedSectionVars false

namespace S2Pac

open Lib

variable {D : Type} [DecidableEq D] {J : Type}

/-- The batch of a proposal, unless it is the empty one. -/
def batchOf (o : NodeOut D) : Option Batch :=
  match o.msg with
  | some (.propose p) => if p.b.batch.id = -1 then none else some p.b.batch
  | _ => none

/-- The batches that a node has proposed, oldest first. -/
def proposedBatches (outs : List (NodeOut D)) : List Batch := outs.filterMap batchOf

/-! ## What a step does to the pool -/

/-- **What a step does with the batches of node `self`.** -/
inductive Spend (E : Env D) (self : NodeID) (c : Node D J) : Node D J → List (NodeOut D) → Prop
  | keep {c' : Node D J} {os : List (NodeOut D)} : c'.batchChannel = c.batchChannel →
      c'.bcnt = c.bcnt → (∀ o ∈ os, batchOf o = none) → Spend E self c c' os
  /-- `generatorBlock`, and the proposal of the block. -/
  | take {c' : Node D J} {p : ProposeMsg D} : c'.batchChannel = c.getBatch.2.batchChannel →
      c'.bcnt = c.bcnt → p.b.batch = c.getBatch.1 → Spend E self c c' [.bcast (.propose p)]
  /-- `make`. -/
  | make {c' : Node D J} (txs : List Bytes) :
      c'.batchChannel = c.batchChannel ++ [⟨self + E.n * c.bcnt, txs⟩] → c'.bcnt = c.bcnt + 1 →
      Spend E self c c' []

/-- The machines whose steps are of this kind. -/
structure Spends (E : Env D) (M : NodeMachine D J) : Prop where
  init : ∀ i, M.init i = Node.new E
  recv : ∀ i c m r, M.recv i c m = some r → Spend E i c r.1 r.2
  act : ∀ i c a r, M.act i c a = some r → Spend E i c r.1 r.2

section Spend

variable {E : Env D} {self : NodeID} {V : Variant} {P : Goroutines D J} {c c' : Node D J}
  {os : List (NodeOut D)}

theorem batchOf_eq_none {o : NodeOut D} (h : ∀ p, o.msg ≠ some (.propose p)) : batchOf o = none := by
  unfold batchOf
  split
  · next p hp => exact absurd hp (h p)
  · rfl

theorem Spend.skip (hch : c'.batchChannel = c.batchChannel) (hb : c'.bcnt = c.bcnt) :
    Spend E self c c' [] :=
  Spend.keep hch hb fun _ ho => absurd ho List.not_mem_nil

theorem Spend.single {o : NodeOut D} (hch : c'.batchChannel = c.batchChannel)
    (hb : c'.bcnt = c.bcnt) (ho : batchOf o = none) : Spend E self c c' [o] :=
  Spend.keep hch hb fun o' ho' => by rwa [List.mem_singleton.1 ho']

theorem Handling.spend {m : Msg D} (h : Handling E self V P c m c' os) : Spend E self c c' os := by
  cases h with
  | finVote _ _ =>
    split
    · exact Spend.single rfl rfl rfl
    · exact Spend.skip rfl rfl
  | counted _ _ =>
    unfold BigCore.countSpeedVote
    dsimp only
    split
    · exact Spend.single rfl rfl rfl
    · exact Spend.skip rfl rfl
  | tossed _ _ _ _ | elected _ _ _ =>
    cases V with
    | lean => exact Spend.single rfl rfl rfl
    | _ => exact Spend.skip rfl rfl
  | advance _ _ _ _ => exact Spend.take rfl rfl rfl
  | _ => exact Spend.skip rfl rfl

theorem Acting.spend {a : Act} (h : Acting E self V P c a c' os) : Spend E self c c' os := by
  cases h with
  | boot _ _ | propose _ _ _ _ => exact Spend.take rfl rfl rfl
  | @task i k j s js _ _ _ _ _ hwork =>
    cases hwork.batches with
    | none hch hos => exact Spend.keep hch hwork.bcnt fun o ho => batchOf_eq_none (hos o ho)
    | one hch hos hp =>
      subst hos
      rw [c.getBatch_of_channel { c with tasks := c.tasks.eraseIdx i } rfl] at hch hp
      exact Spend.take hch hwork.bcnt hp
  | coin hc =>
    cases hc with
    | handed _ _ => exact Spend.single rfl rfl rfl
    | _ => exact Spend.skip rfl rfl
  | report _ _ => exact Spend.single rfl rfl rfl
  | commitor _ =>
    refine Spend.keep rfl rfl fun o ho => ?_
    obtain ⟨b, -, rfl⟩ := List.mem_map.1 ho
    rfl
  | makeBatch txs => exact Spend.make txs rfl rfl
  | _ => exact Spend.skip rfl rfl

theorem Branches.spends {M : NodeMachine D J} (hM : Branches E V P M) : Spends E M where
  init := hM.init
  recv _ _ _ _ h := (hM.recv _ _ _ _ h).2.spend
  act _ _ _ _ h := (hM.act _ _ _ _ h).spend

end Spend

theorem Core.spends (E : Env D) : Spends E (Core.machine E) := (Core.branches E).spends

theorem BigCore.spends (E : Env D) : Spends E (BigCore.machine E) := (BigCore.branches E).spends

theorem DAGBigCore.spends (E : Env D) : Spends E (DAGBigCore.machine E) := (DAGBigCore.branches E).spends

/-! ## The order of the batches -/

/-- The ids that `make` gives, in its order. -/
def batchIds (E : Env D) (self : NodeID) (n : ℕ) : List ℤ :=
  (List.range n).map fun k : ℕ => self + E.n * (k : ℤ)

/-- **What the pool has made is proposed or still on the channel**, in its order. -/
theorem Spends.fifo {E : Env D} {M : NodeMachine D J} (hM : Spends E M)
    {G : Machine.Guard NodeID (Node D J) (Msg D) Act (Event D)} {self : NodeID} (hself : 0 ≤ self)
    {h : NodeHost D J} (hl : M.Local G self h) :
    (proposedBatches h.outs ++ h.st.batchChannel).map Batch.id = batchIds E self h.st.bcnt := by
  have hstep : ∀ {c c' : Node D J} {outs os : List (NodeOut D)}, Spend E self c c' os →
      (proposedBatches outs ++ c.batchChannel).map Batch.id = batchIds E self c.bcnt →
      (proposedBatches (outs ++ os) ++ c'.batchChannel).map Batch.id = batchIds E self c'.bcnt := by
    intro c c' outs os hs ih
    unfold proposedBatches
    rw [List.filterMap_append]
    cases hs with
    | keep hch hb hos =>
      rw [List.filterMap_eq_nil_iff.2 hos, List.append_nil, hch, hb]
      exact ih
    | @take p hch hb hp =>
      rw [hch, hb]
      unfold Node.getBatch at hp ⊢
      cases hq : c.batchChannel with
      | nil =>
        -- the empty batch
        rw [hq] at hp ih
        have hof : batchOf (.bcast (.propose p) : NodeOut D) = none := by
          simp [batchOf, Out.msg, hp]
        simpa [hof, hq, proposedBatches] using ih
      | cons b rest =>
        rw [hq] at hp ih
        have hb : b.id ∈ batchIds E self c.bcnt := by
          rw [← ih]
          simp
        obtain ⟨k, -, hk⟩ := List.mem_map.1 hb
        have hnonneg : 0 ≤ b.id := hk ▸ add_nonneg hself (by positivity)
        have hof : batchOf (.bcast (.propose p) : NodeOut D) = some b := by
          have hne : b.id ≠ -1 := by omega
          simp [batchOf, Out.msg, hp, hne]
        simpa [hof, proposedBatches] using ih
    | make txs hch hb =>
      have hids : batchIds E self (c.bcnt + 1) = batchIds E self c.bcnt ++ [self + E.n * c.bcnt] := by
        simp [batchIds, List.range_succ]
      rw [hch, hb, hids, ← ih]
      simp [proposedBatches]
  induction hl with
  | start => simp [Machine.start, hM.init, Node.new, proposedBatches, batchIds]
  | recv _ _ hs ih => exact hstep (hM.recv _ _ _ _ hs) ih
  | act _ _ hs ih => exact hstep (hM.act _ _ _ _ hs) ih

theorem batchIds_nodup {E : Env D} {self : NodeID} (hself : self ∈ E.members) (n : ℕ) :
    (batchIds E self n).Nodup := by
  have hn : (0 : ℤ) < E.n := by
    obtain ⟨h0, hlt⟩ := E.mem_members.1 hself
    omega
  refine List.Nodup.map (fun k k' h => ?_) List.nodup_range
  have := mul_left_cancel₀ hn.ne' (add_left_cancel h)
  exact_mod_cast this

theorem batchIds_author {E : Env D} {i j : NodeID} (hi : i ∈ E.members) (hj : j ∈ E.members) {n n' : ℕ}
    {x : ℤ} (hx : x ∈ batchIds E i n) (hx' : x ∈ batchIds E j n') : i = j := by
  obtain ⟨k, -, rfl⟩ := List.mem_map.1 hx
  obtain ⟨k', -, hk⟩ := List.mem_map.1 hx'
  obtain ⟨hi₀, hin⟩ := E.mem_members.1 hi
  obtain ⟨hj₀, hjn⟩ := E.mem_members.1 hj
  have hmod := congrArg (· % (E.n : ℤ)) hk
  simp only [Int.add_mul_emod_self_left] at hmod
  rw [Int.emod_eq_of_lt hj₀ hjn, Int.emod_eq_of_lt hi₀ hin] at hmod
  exact hmod.symm

/-! ## The logs -/

theorem Commitor.commit_committed {c c' : Commitor D} {b : Block D} (h : c.commit b = some c') :
    c'.committedBlcoks = c.committedBlcoks := by
  unfold Commitor.commit at h
  split at h
  · cases h
    rfl
  · split at h
    · cases h
      rfl
    · cases h

theorem DAGBigCore.emitted_nodup {E : Env D} {self : NodeID}
    {G : Machine.Guard NodeID (BigNode D) (Msg D) Act (Event D)} {h : NodeHost D (BigJob D)}
    (hl : (machine E).Local G self h) : ((emitted h.outs).map (Block.hash E)).Nodup := by
  have hboth : (∀ b ∈ emitted h.outs, b.hash E ∈ h.st.commitor.committedBlcoks) ∧
      ((emitted h.outs).map (Block.hash E)).Nodup := by
    refine (conducts E).log_induction (fun _ _ => step_of_commitor)
      (R := fun _ c log => (∀ b ∈ log, b.hash E ∈ c.committedBlcoks) ∧
        (log.map (Block.hash E)).Nodup) ⟨by simp, by simp⟩ (fun _ _ _ _ ih => ih)
      (fun l c log b c' ih _ hc => ?_) (fun l st c log c' bs ih _ hr => ?_) hl
    · rw [Commitor.commit_committed hc]
      exact ih
    · cases DAGCommitor.step_of_run hr with
      | @emit b rest hw hcom =>
        refine ⟨fun x hx => ?_, ?_⟩
        · rcases List.mem_append.1 hx with hx | hx
          · exact List.mem_cons_of_mem _ (ih.1 x hx)
          · rw [List.mem_singleton.1 hx]
            exact List.mem_cons_self
        · rw [List.map_append, List.nodup_append']
          refine ⟨ih.2, List.nodup_singleton _, fun d hd hd' => ?_⟩
          obtain ⟨x, hx, rfl⟩ := List.mem_map.1 hd
          exact hcom (List.mem_singleton.1 hd' ▸ ih.1 x hx)
      | _ => simpa using ih
  exact hboth.2

section Linear

variable {E : Env D} {M : NodeMachine D J} {w : NodeWorld D J}
  {G : Machine.Guard NodeID (Node D J) (Msg D) Act (Event D)} {flagged : Bool}

theorem Ancestral.exists_parent (hA : Ancestral E M w) (hhash : HashesApart E M w) {b : Block D}
    (hb : Known M w b) {q : BlockQC D} (hq : b.qc = some q) :
    ∃ c, Backed E M w q.proposer q.view q.height q.parentBlockHash c ∧ parent E M w b = some c := by
  obtain ⟨c, hc, -⟩ := hA.qc_sound hb hq
  have hex : ∃ p, Known M w p ∧ p.hash E = q.parentBlockHash := ⟨c, hc.known, hc.hash⟩
  refine ⟨c, hc, ?_⟩
  unfold parent
  rw [hq, Option.bind_some, dif_pos hex]
  exact congrArg some ((hhash _ hex.choose_spec.1).2 _ hc.known (hex.choose_spec.2.trans hc.hash.symm))

/-- **The proposed blocks of a world are a forest**, where their hashes tell them apart. -/
noncomputable def Ancestral.tree (hA : Ancestral E M w) (hhash : HashesApart E M w)
    (hM : Turns E flagged M) (hw : M.Reach G w) : BlockTree E where
  mem := Known M w
  par := parent E M w
  hash_inj _ _ hb hb' hh := (hhash _ hb).2 _ hb' hh
  par_none _ _ hq := Chained.parent_none hq
  par_some b hb q hq := by
    obtain ⟨c, hc, hp⟩ := hA.exists_parent hhash hb hq
    exact ⟨c, hc.known, hc.hash, hp⟩
  path b hb := by
    refine exists_rootPath_of_rank rank (fun b c hb hc => ?_) hb
    cases hq : b.qc with
    | none =>
      rw [Chained.parent_none hq] at hc
      cases hc
    | some q =>
      obtain ⟨c', hc', hp⟩ := hA.exists_parent hhash hb hq
      obtain rfl : c' = c := Option.some.inj (hp.symm.trans hc)
      exact ⟨hc'.known, hA.rank_lt hM hw hb ⟨q, hq, hc'⟩⟩

theorem Ancestral.emitted_nodup (hA : Ancestral E M w) (hhash : HashesApart E M w)
    (hM : Turns E flagged M) (hw : M.Reach G w)
    (hrec : ∀ i h, M.Local G i h → ∀ k height, height ≤ HEIGHT_2 →
      Turns.Recorded E h.received k height ((h.st.spbInstances k).blockHash height))
    {i : NodeID} (hi : i ∈ M.hosts) : (emitted (w.host i).outs).Nodup := by
  have hmem : ∀ p, Msg.propose p ∈ (w.host i).received → (hA.tree hhash hM hw).mem p.b := by
    intro p hp
    obtain ⟨ha, hproposed⟩ := hA.orderly.proposed_of_received hw hi hp
    exact ⟨_, ha, hproposed⟩
  obtain ⟨passed, hlog, -⟩ := hM.log (hw.local i) (hrec i) hmem
  exact hlog.nodup

end Linear

/-! ## Commits -/

/-- **Every batch is proposed once and committed at most once.** -/
structure CommitsOnce (E : Env D) (M : NodeMachine D J) (w : NodeWorld D J) : Prop where
  /-- What the pool of a node has made is proposed, once, or still on the channel. -/
  spent : ∀ i ∈ M.hosts,
    ((proposedBatches (w.host i).outs ++ (w.host i).st.batchChannel).map Batch.id).Perm
      (batchIds E i (w.host i).st.bcnt)
  /-- What a node commits has been proposed by the node that the block names. -/
  origin : ∀ i ∈ M.hosts, ∀ b ∈ emitted (w.host i).outs, b.author ∈ M.hosts ∧
    (b.batch.id ≠ -1 → b.batch ∈ proposedBatches (w.host b.author).outs)
  /-- No log has a batch twice. -/
  once : ∀ i ∈ M.hosts, (((emitted (w.host i).outs).map fun b => b.batch.id).filter (· ≠ -1)).Nodup

section Commits

variable {E : Env D} {M : NodeMachine D J} {w : NodeWorld D J}
  {G : Machine.Guard NodeID (Node D J) (Msg D) Act (Event D)}

theorem mem_proposedBatches {i : NodeID} {b : Block D} (hb : Proposed w i b) (hid : b.batch.id ≠ -1) :
    b.batch ∈ proposedBatches (w.host i).outs := by
  obtain ⟨o, ho, p, hp, rfl⟩ := hb
  exact List.mem_filterMap.2 ⟨o, ho, by simp [batchOf, hp, hid]⟩

theorem Spends.block_unique (hM : Spends E M) (hhosts : M.hosts = E.members) (hw : M.Reach G w)
    {i : NodeID} (hi : i ∈ M.hosts) {b b' : Block D} (hb : Proposed w i b) (hb' : Proposed w i b')
    (hid : b.batch.id ≠ -1) (he : b.batch.id = b'.batch.id) : b = b' := by
  rw [hhosts] at hi
  have hnodup : ((proposedBatches (w.host i).outs).map Batch.id).Nodup := by
    have hall := batchIds_nodup hi (w.host i).st.bcnt
    rw [← hM.fifo (E.mem_members.1 hi).1 (hw.local i), List.map_append] at hall
    exact hall.of_append_left
  have hcount : (w.host i).outs.countP
      (fun o => (batchOf o).any fun x => decide (x.id = b.batch.id)) ≤ 1 := by
    have hle := List.nodup_iff_count_le_one.1 hnodup b.batch.id
    rw [List.count, List.countP_map, proposedBatches, List.countP_filterMap] at hle
    refine le_trans (List.countP_mono_left fun o _ ho => ?_) hle
    cases hof : batchOf o with
    | none => simp [hof] at ho
    | some x => simpa [hof] using ho
  obtain ⟨o, ho, p, hp, rfl⟩ := hb
  obtain ⟨o', ho', p', hp', rfl⟩ := hb'
  have hoo : o = o' := by
    refine eq_of_countP_le_one hcount ho ho' ?_ ?_
    · simp [batchOf, hp, hid]
    · simp [batchOf, hp', he ▸ hid, he]
  subst hoo
  rw [hp] at hp'
  cases hp'
  rfl

theorem CommitsOnce.of_source (hM : Spends E M) (hhosts : M.hosts = E.members) (ho : Orderly M w)
    (hw : M.Reach G w)
    (hsrc : ∀ i ∈ M.hosts, ∀ b ∈ emitted (w.host i).outs, Arrived (w.host i).received b)
    (hnodup : ∀ i ∈ M.hosts, (emitted (w.host i).outs).Nodup) : CommitsOnce E M w := by
  have horigin : ∀ i ∈ M.hosts, ∀ b ∈ emitted (w.host i).outs,
      b.author ∈ M.hosts ∧ Proposed w b.author b := by
    intro i hi b hb
    obtain ⟨p, hp, rfl⟩ := hsrc i hi b hb
    obtain ⟨ha, hproposed⟩ := ho.proposed_of_received hw hi hp
    have hauthor : p.author = p.b.author := (ho.proper_of_received hw hi _ hp).1
    exact hauthor ▸ ⟨ha, hproposed⟩
  refine ⟨fun i hi => ?_, fun i hi b hb => ?_, fun i hi => ?_⟩
  · rw [hhosts] at hi
    rw [hM.fifo (E.mem_members.1 hi).1 (hw.local i)]
  · exact ⟨(horigin i hi b hb).1, mem_proposedBatches (horigin i hi b hb).2⟩
  · rw [List.filter_map]
    refine List.Nodup.map_on (fun b hb b' hb' he => ?_) ((hnodup i hi).filter _)
    obtain ⟨hb, hid⟩ := List.mem_filter.1 hb
    obtain ⟨hb', hid'⟩ := List.mem_filter.1 hb'
    have hid : b.batch.id ≠ -1 := by simpa using hid
    obtain ⟨ha, hp⟩ := horigin i hi b hb
    obtain ⟨ha', hp'⟩ := horigin i hi b' hb'
    have hids : ∀ {j : NodeID} {x : Block D}, j ∈ M.hosts → Proposed w j x → x.batch.id ≠ -1 →
        x.batch.id ∈ batchIds E j (w.host j).st.bcnt := by
      intro j x hj hx hne
      rw [hhosts] at hj
      rw [← hM.fifo (E.mem_members.1 hj).1 (hw.local j)]
      exact List.mem_map_of_mem (List.mem_append_left _ (mem_proposedBatches hx hne))
    have hauthor : b.author = b'.author := by
      have hx := hids ha hp hid
      have hx' := hids ha' hp' (he ▸ hid)
      rw [← he] at hx'
      exact batchIds_author (hhosts ▸ ha) (hhosts ▸ ha') hx hx'
    exact hM.block_unique hhosts hw ha hp (hauthor ▸ hp') hid he

end Commits

/-- **Batches are committed at most once**, in all runs of the three protocols: the batches that the pool of a
node has made are proposed once or wait on the channel, and no commitor emits one of them twice. The linear
commitor walks by hashes, which have to tell the proposed blocks apart. In the DAG variant the batches are
proposed in the order in which they were made. -/
theorem batches_committed_once (E : Env D) :
    (∀ w, (Core.machine E).Reach Machine.anyInput w → HashesApart E (Core.machine E) w →
      CommitsOnce E (Core.machine E) w) ∧
    (∀ w, (BigCore.machine E).Reach Machine.anyInput w → HashesApart E (BigCore.machine E) w →
      CommitsOnce E (BigCore.machine E) w) ∧
    ∀ w, (DAGBigCore.machine E).Reach Machine.anyInput w → CommitsOnce E (DAGBigCore.machine E) w ∧
      ∀ i ∈ E.members, (proposedBatches (w.host i).outs ++ (w.host i).st.batchChannel).map Batch.id =
        batchIds E i (w.host i).st.bcnt := by
  refine ⟨fun w hw hhash => ?_, fun w hw hhash => ?_, fun w hw => ?_⟩
  · have hA : Ancestral E (Core.machine E) w := ⟨Core.orderly hw,
      fun i hi o ho m hm q hq => Core.qcs_sound hw hi ho hm hq,
      fun i hi o ho m hm => Core.linked_step hw hi (Core.linked_received hw hi) ho hm⟩
    exact CommitsOnce.of_source (Core.spends E) rfl (Core.orderly hw) hw
      (fun i _ => ((Core.conducts E).source (Commitor.draws E) (fun _ _ => Core.step_of_commitor)
        (hw.local i)).2)
      fun i hi => hA.emitted_nodup hhash Core.turns hw (fun _ _ hl => Core.recorded hl) hi
  · have hA : Ancestral E (BigCore.machine E) w := ⟨BigCore.orderly hw,
      fun i hi o ho m hm q hq => BigCore.qcs_sound hw hi ho hm hq,
      fun i hi o ho m hm => BigCore.linked_step hw (BigCore.linked_received hw hi) ho hm⟩
    exact CommitsOnce.of_source (BigCore.spends E) rfl (BigCore.orderly hw) hw
      (fun i _ => ((BigCore.conducts E).source (Commitor.draws E) (fun _ _ => BigCore.step_of_commitor)
        (hw.local i)).2)
      fun i hi => hA.emitted_nodup hhash BigCore.turns hw (fun _ _ hl => BigCore.recorded hl) hi
  · refine ⟨CommitsOnce.of_source (DAGBigCore.spends E) rfl (DAGBigCore.orderly hw) hw
      (fun i _ => ((DAGBigCore.conducts E).source (DAGCommitor.draws E)
        (fun _ _ => DAGBigCore.step_of_commitor) (hw.local i)).2)
      fun i _ => List.Nodup.of_map _ (DAGBigCore.emitted_nodup (hw.local i)), fun i hi => ?_⟩
    exact (DAGBigCore.spends E).fifo (E.mem_members.1 hi).1 (hw.local i)

/-- The pool of node 0 has made a batch when the nodes start. -/
def LeanRun.batched : List (NodeOrder ℕ) := .act 0 (.makeBatch [[7]]) :: timely

/-- The world after `LeanRun.batched`. -/
def LeanRun.batchedWorld : NodeWorld ℕ (SpbJob ℕ) :=
  (Core.machine (Env.plain 4 fun _ => 0)).play Machine.anyInput
    (Core.machine (Env.plain 4 fun _ => 0)).world batched

theorem batches_committed_once_four :
    (emitted (LeanRun.batchedWorld.host 1).outs).map (fun b => b.batch.txs) = [[[7]]] ∧
      CommitsOnce (Env.plain 4 fun _ => 0) (Core.machine (Env.plain 4 fun _ => 0))
        LeanRun.batchedWorld := by
  have hspec : HashesApart (Env.plain 4 fun _ => 0) (Core.machine (Env.plain 4 fun _ => 0))
        LeanRun.batchedWorld ∧
      (emitted (LeanRun.batchedWorld.host 1).outs).map (fun b => b.batch.txs) = [[[7]]] := by
    decide +kernel
  exact ⟨hspec.2, (batches_committed_once _).1 _ (Machine.play_sound _ LeanRun.batched) hspec.1⟩

end S2Pac
