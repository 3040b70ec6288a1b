import S2Pac.BigCore.Rounds
import S2Pac.Core.Rounds
import S2Pac.DAGBigCore

/-!
# One step of a node, for the three protocols at once

What a step does to the store, the instances, the goroutines and the commitor of a node is the same in
all three protocols, up to the code of the instances and the second test of `processCoin`. `RecvStep`
and `ActStep` say it once, and `Conducts` are the machines whose steps are of this kind.

A node is again a pool of goroutines, now over the messages that pass the checks of their handlers
(`Conducts.run`), so that what an instance has recorded comes from a proposal that was accepted
(`Conducts.recorded`).
-/

set_option linter.unusedSectionVars false

namespace S2Pac

open Lib

variable {D : Type} [DecidableEq D] {J : Type}

/-! ## Messages that pass the checks of their handler -/

/-- The store after a message: the block of an accepted proposal is put in. -/
def filed (E : Env D) (docG : Bool) (st : Store D) : Msg D → Store D
  | .propose p => if Msg.passes E docG (.propose p) then storeBlock E st p.b else st
  | _ => st

/-! ## Steps -/

/-- The main loop is not between a test of `processCoin` and its `Commit`. -/
def Pc.Outside : Pc D → Prop
  | .fetch _ _ _ => False
  | .commit _ _ _ _ => False
  | _ => True

/-- **What handling a message does.** -/
structure RecvStep (E : Env D) (docG : Bool) (spawn : Msg D → List (Key × J)) (c : Node D J)
    (m : Msg D) (r : Moved D J) : Prop where
  spb : r.1.spbInstances = c.spbInstances
  tasks : r.1.tasks = c.tasks ∨ (m.passes E docG = true ∧ r.1.tasks = c.tasks ++ spawn m)
  store : r.1.store = filed E docG c.store m
  commitor : r.1.commitor = c.commitor
  pc : r.1.pc = c.pc ∨ r.1.pc.Outside
  events : ∀ e, Out.event e ∉ r.2

/-- **What the other steps of a node do.** `step` is the code of the instances and `second` the second
test of `processCoin`. -/
inductive ActStep (step : Key → SPB D → J → SPB D → List J → List (NodeOut D) → Prop)
    (second : Node D J → NodeID → ℤ → Bool) (c : Node D J) (a : Act) (r : Moved D J) : Prop
  | task {i : ℕ} {k : Key} {j : J} {s : SPB D} {js : List J} : a = .task i →
      c.tasks[i]? = some (k, j) → step k (c.spbInstances k) j s js r.2 →
      r.1.spbInstances = Function.update c.spbInstances k s →
      r.1.tasks = c.tasks.eraseIdx i ++ js.map (k, ·) →
      { c with tasks := c.tasks.eraseIdx i }.SameMain r.1 → ActStep step second c a r
  | coin : a = .main → CoinStep (second c) c r.1 r.2 → ActStep step second c a r
  | commitor {cm : Commitor D} : a = .commitor → r.1 = { c with commitor := cm } →
      cm.lastView = c.commitor.lastView → cm.lastHeight = c.commitor.lastHeight →
      (∀ o ∈ r.2, ∃ b, o = .event (.emit b)) → ActStep step second c a r
  | rest : a ≠ .commitor → r.1.spbInstances = c.spbInstances → r.1.tasks = c.tasks →
      r.1.store = c.store → r.1.commitor = c.commitor → (r.1.pc = c.pc ∨ r.1.pc.Outside) →
      (∀ e, Out.event e ∉ r.2) → ActStep step second c a r

/-- The goroutines of the instances, with no condition on what the rest of the node puts out. -/
def freeCode (E : Env D) (spawn : Msg D → List (Key × J))
    (step : Key → SPB D → J → SPB D → List J → List (NodeOut D) → Prop) :
    PoolCode Key (SPB D) J (Msg D) (NodeOut D) where
  init := SPB.new E
  spawn := spawn
  step := step
  other := fun _ => True

/-- The machines whose steps are of this kind, with instances that lose nothing they have reached and
record the hashes of the proposals they were handed. -/
structure Conducts (E : Env D) (docG : Bool) (spawn : Msg D → List (Key × J))
    (step : NodeID → Key → SPB D → J → SPB D → List J → List (NodeOut D) → Prop)
    (second : Node D J → NodeID → ℤ → Bool)
    (M : Machine NodeID (Node D J) (Msg D) Act (Event D)) : Prop where
  init : ∀ i, M.init i = Node.new E
  recv : ∀ i c m r, M.recv i c m = some r → RecvStep E docG spawn c m r
  act : ∀ i c a r, M.act i c a = some r → ActStep (step i) second c a r
  grows : ∀ i k s j s' js os, step i k s j s' js os → s.Grows s'
  quiet : ∀ i k s j s' js os, step i k s j s' js os → ∀ e, Out.event e ∉ os
  recorded : ∀ i x, (freeCode E spawn (step i)).Run x → ∀ k height, height ≤ HEIGHT_2 →
    Turns.Recorded E x.received k height ((x.inst k).blockHash height)
  rehash : ∀ i x, (freeCode E spawn (step i)).Run x → ∀ k j s' js os, (k, j) ∈ x.tasks →
    step i k (x.inst k) j s' js os → ∀ height, s'.blockHash height = (x.inst k).blockHash height ∨
      ∃ p, Msg.propose p ∈ x.received ∧ k = (p.view, p.author) ∧ p.height = height ∧
        s'.blockHash height = p.b.hash E

section Steps

variable {E : Env D} {docG : Bool} {spawn : Msg D → List (Key × J)} {c : Node D J} {m : Msg D}
  {r : Moved D J}

theorem filed_of_fails (h : m.passes E docG = true → ∀ p, m ≠ .propose p) (st : Store D) :
    filed E docG st m = st := by
  cases m with
  | propose p => exact if_neg fun hp => h hp p rfl
  | _ => rfl

theorem filed_propose {p : ProposeMsg D} (h : Msg.passes E docG (.propose p) = true) (st : Store D) :
    filed E docG st (.propose p) = storeBlock E st p.b := if_pos h

variable {self : NodeID} {V : Variant} {P : Goroutines D J} {c' : Node D J} {os : List (NodeOut D)}

theorem Faulty.fails (h : Faulty E V c m) : m.passes E V.docG = true → ∀ p, m ≠ .propose p := by
  rintro hp p rfl
  rcases h.of_passes hp with ⟨e, he, -⟩ | ⟨r, he, -⟩ <;> cases he

theorem Pc.outside_entry (c : Node D J) (view : ℤ) (height : ℕ) : (c.entry view height).Outside := by
  unfold Node.entry
  split <;> exact trivial

theorem Handling.recvStep (h : Handling E self V P c m c' os) :
    RecvStep E V.docG P.spawn c m (c', os) := by
  have hnone : ∀ e, Out.event e ∉ ([] : List (NodeOut D)) := by simp
  cases h with
  | ignored hm =>
    exact ⟨rfl, Or.inl rfl, (filed_of_fails (fun hp => (hm hp).1) _).symm, rfl, Or.inl rfl, hnone⟩
  | panics hm => exact ⟨rfl, Or.inl rfl, (filed_of_fails hm.fails _).symm, rfl, Or.inl rfl, hnone⟩
  | stale _ hp => exact ⟨rfl, Or.inl rfl, (filed_propose hp _).symm, rfl, Or.inl rfl, hnone⟩
  | propose hp => exact ⟨rfl, Or.inr ⟨hp, rfl⟩, (filed_propose hp _).symm, rfl, Or.inl rfl, hnone⟩
  | vote hp => exact ⟨rfl, Or.inr ⟨hp, rfl⟩, rfl, rfl, Or.inl rfl, hnone⟩
  | speedVote _ hp => exact ⟨rfl, Or.inr ⟨hp, rfl⟩, rfl, rfl, Or.inl rfl, hnone⟩
  | finVote _ hp =>
    refine ⟨rfl, Or.inr ⟨hp, rfl⟩, rfl, rfl, Or.inl rfl, fun e he => ?_⟩
    dsimp only at he
    split at he
    · cases List.mem_singleton.1 he
    · exact absurd he List.not_mem_nil
  | @counted sv _ hp =>
    exact ⟨rfl, Or.inr ⟨hp, rfl⟩, rfl, rfl, Or.inl rfl,
      fun e he => (BigCore.countSpeedVote_aside c sv _ he).msg_ne_none rfl⟩
  | tossed _ _ hne _ =>
    refine ⟨rfl, Or.inl rfl, rfl, rfl, Or.inl rfl, fun e he => ?_⟩
    obtain ⟨_, -, -, h⟩ := Variant.announced hne _ _ he
    cases h
  | elected _ hne _ =>
    refine ⟨rfl, Or.inl rfl, rfl, rfl, Or.inr trivial, fun e he => ?_⟩
    obtain ⟨_, -, -, h⟩ := Variant.announced hne _ _ he
    cases h
  | told _ _ => exact ⟨rfl, Or.inl rfl, rfl, rfl, Or.inr trivial, hnone⟩
  | advance _ _ _ _ => exact ⟨rfl, Or.inl rfl, rfl, rfl, Or.inl rfl, by simp⟩
  | enter _ _ _ => exact ⟨rfl, Or.inl rfl, rfl, rfl, Or.inr (Pc.outside_entry _ _ _), hnone⟩
  | _ => exact ⟨rfl, Or.inl rfl, rfl, rfl, Or.inl rfl, hnone⟩

theorem Variant.run_last {st : Store D} {cm cm' : Commitor D} {bs : List (Block D)}
    (h : V.run E st cm = some (cm', bs)) :
    cm'.lastView = cm.lastView ∧ cm'.lastHeight = cm.lastHeight := by
  cases V with
  | dag => exact DAGCommitor.run_last h
  | _ => exact Commitor.run_last h

theorem Acting.actStep {a : Act} (h : Acting E self V P c a c' os) :
    ActStep (P.step self) (V.second E) c a (c', os) := by
  cases h with
  | boot _ _ => exact .rest (by simp) rfl rfl rfl rfl (Or.inl rfl) (by simp)
  | task hi _ hstep hwork => exact .task rfl hi hstep hwork.spb hwork.tasks hwork.toSameMain
  | coin hc => exact .coin rfl hc
  | commitor hrun =>
    obtain ⟨hv, hh⟩ := Variant.run_last hrun
    refine .commitor rfl rfl hv hh fun o ho => ?_
    obtain ⟨b, -, rfl⟩ := List.mem_map.1 ho
    exact ⟨b, rfl⟩
  | makeBatch txs => exact .rest (by simp) rfl rfl rfl rfl (Or.inl rfl) (by simp)
  | leave _ _ | callback _ _ _ =>
    exact .rest (by simp) rfl rfl rfl rfl (Or.inr (Pc.outside_entry _ _ _)) (by simp)
  | _ => exact .rest (by simp) rfl rfl rfl rfl (Or.inr trivial) (by simp)

end Steps

/-! ## A node as a pool over the messages it has accepted -/

/-- The instances and the goroutines of a node that has accepted the messages `l`. -/
def Node.inside (c : Node D J) (l : List (Msg D)) (outs : List (NodeOut D)) :
    Pool Key (SPB D) J (Msg D) (NodeOut D) :=
  ⟨c.spbInstances, c.tasks, l, outs⟩

section Pools

variable {E : Env D} {docG : Bool} {spawn : Msg D → List (Key × J)}
  {step : Key → SPB D → J → SPB D → List J → List (NodeOut D) → Prop}
  {second : Node D J → NodeID → ℤ → Bool} {c : Node D J} {r : Moved D J} {l : List (Msg D)}
  {outs : List (NodeOut D)}

theorem RecvStep.run {m : Msg D} (hs : RecvStep E docG spawn c m r)
    (hx : (freeCode E spawn step).Run (c.inside l outs)) :
    (freeCode E spawn step).Run
      (r.1.inside (l ++ [m].filter (Msg.passes E docG)) (outs ++ r.2)) := by
  by_cases hp : m.passes E docG = true
  · have hrun : ∀ ts, (ts = [] ∨ ts = spawn m) → r.1.tasks = c.tasks ++ ts →
        (freeCode E spawn step).Run (r.1.inside (l ++ [m]) (outs ++ r.2)) := by
      intro ts hts he
      have h := PoolCode.Run.recv hx hts fun o (_ : o ∈ r.2) => trivial
      simpa only [Node.inside, hs.spb, he] using h
    rw [List.filter_cons_of_pos hp, List.filter_nil]
    rcases hs.tasks with ht | ⟨-, ht⟩
    · exact hrun [] (Or.inl rfl) (by rw [ht, List.append_nil])
    · exact hrun _ (Or.inr rfl) ht
  · have ht : r.1.tasks = c.tasks := hs.tasks.resolve_right fun h => hp h.1
    have h := PoolCode.Run.other hx fun o (_ : o ∈ r.2) => trivial
    rw [List.filter_cons_of_neg hp, List.filter_nil, List.append_nil]
    simpa only [Node.inside, hs.spb, ht] using h

theorem ActStep.run {a : Act} (hs : ActStep step second c a r)
    (hx : (freeCode E spawn step).Run (c.inside l outs)) :
    (freeCode E spawn step).Run (r.1.inside l (outs ++ r.2)) := by
  have still : r.1.spbInstances = c.spbInstances → r.1.tasks = c.tasks →
      (freeCode E spawn step).Run (r.1.inside l (outs ++ r.2)) := by
    intro hspb ht
    have h := PoolCode.Run.other hx fun o (_ : o ∈ r.2) => trivial
    simpa only [Node.inside, hspb, ht] using h
  cases hs with
  | task _ hi hstep hspb ht _ =>
    have h := PoolCode.Run.job hx hi hstep
    simpa only [Node.inside, hspb, ht] using h
  | coin _ hc =>
    obtain ⟨c', os⟩ := r
    cases hc <;> exact still rfl rfl
  | commitor _ hr => exact still (by rw [hr]) (by rw [hr])
  | rest _ hspb ht => exact still hspb ht

theorem ActStep.spb {a : Act} (hs : ActStep step second c a r) (k : Key) :
    r.1.spbInstances k = c.spbInstances k ∨ ∃ i j js os, a = .task i ∧
      c.tasks[i]? = some (k, j) ∧ step k (c.spbInstances k) j (r.1.spbInstances k) js os := by
  cases hs with
  | @task i k' j s js ha hi hstep hspb _ _ =>
    rw [hspb]
    by_cases hk : k = k'
    · subst hk
      rw [Function.update_self]
      exact Or.inr ⟨i, j, js, r.2, ha, hi, hstep⟩
    · exact Or.inl (Function.update_of_ne hk _ _)
  | coin _ hc =>
    obtain ⟨c', os⟩ := r
    cases hc <;> exact Or.inl rfl
  | commitor _ hr => exact Or.inl (by rw [hr])
  | rest _ hspb => exact Or.inl (by rw [hspb])

end Pools

namespace Conducts

variable {E : Env D} {docG : Bool} {spawn : Msg D → List (Key × J)}
  {step : NodeID → Key → SPB D → J → SPB D → List J → List (NodeOut D) → Prop}
  {second : Node D J → NodeID → ℤ → Bool} {M : Machine NodeID (Node D J) (Msg D) Act (Event D)}
  {G : Machine.Guard NodeID (Node D J) (Msg D) Act (Event D)} {self : NodeID} {h : NodeHost D J}

/-- **A node is a pool of goroutines over the messages that it has accepted.** -/
theorem run (hM : Conducts E docG spawn step second M) (hl : M.Local G self h) :
    (freeCode E spawn (step self)).Run
      (h.st.inside (h.received.filter (Msg.passes E docG)) h.outs) := by
  induction hl with
  | start =>
    rw [Machine.start, hM.init]
    exact PoolCode.Run.start
  | recv _ _ hs ih =>
    have := (hM.recv _ _ _ _ hs).run ih
    rwa [← List.filter_append] at this
  | act _ _ hs ih => exact (hM.act _ _ _ _ hs).run ih

/-- **What a step of the node does to an instance**: nothing, or what one of its goroutines does. -/
theorem step_spb (hM : Conducts E docG spawn step second M) {h' : NodeHost D J}
    (hs : M.LocalStep G self h h') (k : Key) :
    h'.st.spbInstances k = h.st.spbInstances k ∨
      ∃ i j js os, G self h (.act (.task i)) ∧ h.st.tasks[i]? = some (k, j) ∧
        step self k (h.st.spbInstances k) j (h'.st.spbInstances k) js os := by
  obtain ⟨x, r, hg, hr, rfl⟩ := hs
  cases x with
  | recv m =>
    obtain ⟨⟨c, os⟩, hm, rfl⟩ := Option.map_eq_some_iff.1 hr
    exact Or.inl (congrFun (hM.recv _ _ _ _ hm).spb k)
  | act a =>
    obtain ⟨⟨c, os⟩, ha, rfl⟩ := Option.map_eq_some_iff.1 hr
    rcases (hM.act _ _ _ _ ha).spb k with he | ⟨i, j, js, os', rfl, hi, hstep⟩
    · exact Or.inl he
    · exact Or.inr ⟨i, j, js, os', hg, hi, hstep⟩

end Conducts

/-! ## The lean protocol -/

namespace Core

variable {E : Env D} {self : NodeID}

theorem held_of_run {x : Pool Key (SPB D) (SpbJob D) (Msg D) (NodeOut D)}
    (hx : (freeCode E spawn (JobStep E self)).Run x) :
    (∀ t ∈ x.tasks, Handed x.received t.1 t.2) ∧ ∀ k, Held E x.received k (x.inst k) := by
  obtain ⟨hT, hB, -⟩ := hx.sourced (R := fun _ => True) (fun _ _ _ => trivial) (T := Handed)
    (B := Held E) (O := fun _ _ => True) (fun _ m _ _ h => h.mono m) (fun _ m _ _ h => h.mono m)
    (fun _ _ _ _ => trivial) held_new (fun _ _ _ _ ht => handed_spawn ht) (fun _ _ _ => trivial)
    (fun _ _ _ _ _ _ _ _ hj hs h =>
      let ⟨h₁, h₂, _⟩ := jobStep_sourced hj hs h; ⟨h₁, h₂, fun _ _ => trivial⟩) trivial
  exact ⟨hT, hB⟩

theorem JobStep.rehash {k : Key} {s s' : SPB D} {j : SpbJob D} {js : List (SpbJob D)}
    {os : List (NodeOut D)} (h : JobStep E self k s j s' js os) (height : ℕ) :
    s'.blockHash height = s.blockHash height ∨
      ∃ p, j = .propose p ∧ p.height = height ∧ s'.blockHash height = p.b.hash E := by
  cases h with
  | proposeFirst p hp =>
    by_cases hh : height = HEIGHT_1
    · subst hh
      exact Or.inr ⟨p, rfl, hp, by simp⟩
    · exact Or.inl (by simp [hh])
  | proposeSecond p qc hp _ _ =>
    by_cases hh : height = HEIGHT_2
    · subst hh
      exact Or.inr ⟨p, rfl, hp, by simp⟩
    · exact Or.inl (by simp [hh])
  | _ => exact Or.inl rfl

theorem conducts (E : Env D) : Conducts E true spawn (JobStep E)
    (fun c leader view => (c.spbInstances (view, leader)).decCert) (machine E) where
  init _ := rfl
  recv _ _ _ _ h := ((branches E).recv _ _ _ _ h).2.recvStep
  act _ _ _ _ h := (acting h).actStep
  grows _ _ _ _ _ _ _ h := h.grows
  quiet _ _ _ _ _ _ _ h _ he := (h.aside _ he).msg_ne_none rfl
  recorded _ _ hx k _ hh := ((held_of_run hx).2 k).recorded hh
  rehash _ _ hx _ _ _ _ _ hj hs height := by
    refine (hs.rehash height).imp_right ?_
    rintro ⟨p, rfl, hp, he⟩
    have hhanded := (held_of_run hx).1 _ hj
    exact ⟨p, hhanded.1, hhanded.2, hp, he⟩

end Core

/-! ## The big protocol -/

namespace BigSPB

variable {E : Env D} {self : NodeID} {V : Rules D}

theorem held_of_run {x : Pool Key (SPB D) (BigJob D) (Msg D) (NodeOut D)}
    (hx : (freeCode E (spawn V) (JobStep E self V)).Run x) :
    (∀ t ∈ x.tasks, Handed self V x.received t.1 t.2) ∧ ∀ k, Held E V x.received k (x.inst k) := by
  obtain ⟨hT, hB, -⟩ := hx.sourced (R := fun _ => True) (fun _ _ _ => trivial)
    (T := Handed self V) (B := Held E V) (O := fun _ _ => True) (fun _ m _ _ h => h.mono m)
    (fun _ m _ _ h => h.mono m) (fun _ _ _ _ => trivial) held_new
    (fun _ _ _ _ ht => handed_spawn ht) (fun _ _ _ => trivial)
    (fun _ _ _ _ _ _ _ _ hj hs h =>
      let ⟨h₁, h₂, _⟩ := jobStep_sourced hj hs h; ⟨h₁, h₂, fun _ _ => trivial⟩) trivial
  exact ⟨hT, hB⟩

/-- Only `processProposeMsg` records a hash. -/
theorem JobStep.rehash {k : Key} {s s' : SPB D} {j : BigJob D} {js : List (BigJob D)}
    {os : List (NodeOut D)} (h : JobStep E self V k s j s' js os) (height : ℕ) :
    s'.blockHash height = s.blockHash height ∨
      ∃ p, j = .propose p ∧ p.height = height ∧ s'.blockHash height = p.b.hash E := by
  cases h with
  | proposeFirst p hp =>
    by_cases hh : height = HEIGHT_1
    · subst hh
      exact Or.inr ⟨p, rfl, hp, by simp⟩
    · exact Or.inl (by simp [hh])
  | proposeSecond p hp _ =>
    by_cases hh : height = HEIGHT_2
    · subst hh
      exact Or.inr ⟨p, rfl, hp, by simp⟩
    · exact Or.inl (by simp [hh])
  | _ => exact Or.inl rfl

/-- The proposal whose hash is recorded was accepted, and it is one for the instance. -/
theorem rehash_of_run {x : Pool Key (SPB D) (BigJob D) (Msg D) (NodeOut D)}
    (hx : (freeCode E (spawn V) (JobStep E self V)).Run x) {k : Key} {j : BigJob D} {s' : SPB D}
    {js : List (BigJob D)} {os : List (NodeOut D)} (hj : (k, j) ∈ x.tasks)
    (hs : JobStep E self V k (x.inst k) j s' js os) (height : ℕ) :
    s'.blockHash height = (x.inst k).blockHash height ∨
      ∃ p, Msg.propose p ∈ x.received ∧ k = (p.view, p.author) ∧ p.height = height ∧
        s'.blockHash height = p.b.hash E := by
  refine (hs.rehash height).imp_right ?_
  rintro ⟨p, rfl, hp, he⟩
  have hhanded := (held_of_run hx).1 _ hj
  exact ⟨p, hhanded.1, hhanded.2, hp, he⟩

end BigSPB

namespace BigCore

variable {E : Env D} {self : NodeID} {docG : Bool}

theorem conducts (E : Env D) : Conducts E false (BigSPB.spawn BigSPB.bigRules)
    (fun i => BigSPB.JobStep E i BigSPB.bigRules)
    (fun c leader view => (c.spbInstances (view, leader)).decCert) (machine E) where
  init _ := rfl
  recv _ _ _ _ h := ((branches E).recv _ _ _ _ h).2.recvStep
  act _ _ _ _ h := (acting h).actStep
  grows _ _ _ _ _ _ _ h := h.grows
  quiet _ _ _ _ _ _ _ h _ he := (h.aside _ he).msg_ne_none rfl
  recorded _ _ hx k _ hh := ((BigSPB.held_of_run hx).2 k).recorded hh
  rehash _ _ hx _ _ _ _ _ hj hs height := BigSPB.rehash_of_run hx hj hs height

end BigCore

/-! ## The DAG variant -/

namespace DAGBigCore

variable {E : Env D} {self : NodeID}

theorem conducts (E : Env D) : Conducts E true (BigSPB.spawn BigSPB.dagRules)
    (fun i => BigSPB.JobStep E i BigSPB.dagRules)
    (fun c leader view => decide (E.lowThreshold ≤ getWeakVotes c view leader)) (machine E) where
  init _ := rfl
  recv _ _ _ _ h := ((branches E).recv _ _ _ _ h).2.recvStep
  act _ _ _ _ h := (acting h).actStep
  grows _ _ _ _ _ _ _ h := h.grows
  quiet _ _ _ _ _ _ _ h _ he := (h.aside _ he).msg_ne_none rfl
  recorded _ _ hx k _ hh := ((BigSPB.held_of_run hx).2 k).recorded hh
  rehash _ _ hx _ _ _ _ _ hj hs height := BigSPB.rehash_of_run hx hj hs height

end DAGBigCore

end S2Pac
