import S2Pac.Lib.Pool
import S2Pac.Node

/-!
# Nodes as pools of goroutines

The instances and the goroutines of a node, as a pool, and what the steps outside the goroutines leave
alone: the handlers and the main loop do not touch the instances (`PoolFrame`), the goroutines do not
touch the fields of the main loop (`Node.SameMain`).
-/

set_option linter.unusedSectionVars false

namespace S2Pac

open Lib

variable {D : Type} [DecidableEq D]

/-- A host of the protocols. -/
abbrev NodeHost (D J : Type) : Type := Host NodeID (Node D J) (Msg D) (Event D)

/-- The part of a node that its instances do not touch. -/
structure Node.SameMain {J : Type} (c c' : Node D J) : Prop where
  view : c'.view = c.view
  height : c'.height = c.height
  store : c'.store = c.store
  eletor : c'.eletor = c.eletor
  commitor : c'.commitor = c.commitor
  coinViewFlags : c'.coinViewFlags = c.coinViewFlags
  finVoteNums : c'.finVoteNums = c.finVoteNums
  speedVoteNums : c'.speedVoteNums = c.speedVoteNums
  weakVotes : c'.weakVotes = c.weakVotes
  reportNums : c'.reportNums = c.reportNums
  pc : c'.pc = c.pc
  booted : c'.booted = c.booted

namespace Node

variable {J : Type} (c : Node D J)

theorem SameMain.upd (spb : Key → SPB D) (tasks : List (Key × J)) (crashed : Bool)
    (bs : List Batch) : SameMain c
      { c with spbInstances := spb, tasks := tasks, crashed := crashed, batchChannel := bs } :=
  ⟨rfl, rfl, rfl, rfl, rfl, rfl, rfl, rfl, rfl, rfl, rfl, rfl⟩

theorem getBatch_eq : ∃ bs, c.getBatch.2 = { c with batchChannel := bs } := by
  unfold getBatch
  split
  · exact ⟨c.batchChannel, rfl⟩
  · next rest _ => exact ⟨rest, rfl⟩

theorem getBatch_same : SameMain c c.getBatch.2 := by
  obtain ⟨bs, h⟩ := c.getBatch_eq
  rw [h]
  exact SameMain.upd ..

theorem spb_self (k : Key) :
    c.spbInstances = Function.update c.spbInstances k (c.spbInstances k) := by simp

theorem tasks_nil (k : Key) : c.tasks = c.tasks ++ ([] : List J).map (k, ·) := by simp

/-- What a step does with the batches of the pool: nothing, or it proposes the next one. -/
inductive Fetches (c c' : Node D J) (os : List (NodeOut D)) : Prop
  | none : c'.batchChannel = c.batchChannel → (∀ o ∈ os, ∀ p, o.msg ≠ some (.propose p)) →
      Fetches c c' os
  | one {p : ProposeMsg D} : c'.batchChannel = c.getBatch.2.batchChannel →
      os = [.bcast (.propose p)] → p.b.batch = c.getBatch.1 → Fetches c c' os

/-- **A node after a step of a goroutine of instance `k`** that leaves the instance at `s`, starts the
goroutines `js` and puts out `os`. Of the rest of the node, a step takes a batch for what it proposes, sends
`calls` to the channel of callbacks, and panics where `bad`. -/
structure Worked (c : Node D J) (k : Key) (s : SPB D) (js : List J) (calls : List Key) (bad : Prop)
    (c' : Node D J) (os : List (NodeOut D)) : Prop extends SameMain c c' where
  spb : c'.spbInstances = Function.update c.spbInstances k s
  tasks : c'.tasks = c.tasks ++ js.map (k, ·)
  bcnt : c'.bcnt = c.bcnt
  callBackSpb : c'.callBackSpb = c.callBackSpb ++ calls
  batches : c.Fetches c' os
  crashed : bad ∨ c'.crashed = c.crashed

section Worked

variable {c} {k : Key} {s : SPB D} {js : List J} {bad : Prop} {os : List (NodeOut D)}

theorem Worked.upd {spb : Key → SPB D} {tasks : List (Key × J)}
    (hspb : spb = Function.update c.spbInstances k s) (htasks : tasks = c.tasks ++ js.map (k, ·))
    (hos : ∀ o ∈ os, ∀ p, o.msg ≠ some (.propose p)) :
    c.Worked k s js [] bad { c with spbInstances := spb, tasks := tasks } os :=
  ⟨SameMain.upd .., hspb, htasks, rfl, (List.append_nil _).symm, .none rfl hos, Or.inr rfl⟩

theorem Worked.panic (h : bad) : c.Worked k (c.spbInstances k) [] [] bad c.crash [] :=
  ⟨SameMain.upd .., c.spb_self k, c.tasks_nil k, rfl, (List.append_nil _).symm, .none rfl (by simp),
    Or.inl h⟩

theorem Worked.propose {p : ProposeMsg D} (h : p.b.batch = c.getBatch.1) :
    c.Worked k (c.spbInstances k) [] [] bad c.getBatch.2 [.bcast (.propose p)] := by
  obtain ⟨bs, hbs⟩ := c.getBatch_eq
  have hb : c.Fetches c.getBatch.2 [.bcast (.propose p)] := .one rfl rfl h
  rw [hbs] at hb ⊢
  exact ⟨SameMain.upd .., c.spb_self k, c.tasks_nil k, rfl, (List.append_nil _).symm, hb, Or.inr rfl⟩

end Worked

theorem idle_of_ready {c : Node D J} (h : c.ready = true) : c.booted = true ∧ c.pc = .idle := by
  simp only [ready, Bool.and_eq_true] at h
  refine ⟨h.1.1, ?_⟩
  have hpc := h.2
  split at hpc
  · assumption
  · cases hpc

end Node

/-- A step outside the goroutines: it leaves the instances alone, starts the tasks `ts` or none, and
puts out only what satisfies `other`. -/
structure PoolFrame {J : Type} (ts : List (Key × J)) (other : NodeOut D → Prop) (c : Node D J)
    (r : Moved D J) : Prop where
  spb : r.1.spbInstances = c.spbInstances
  tasks : r.1.tasks = c.tasks ∨ r.1.tasks = c.tasks ++ ts
  outs : ∀ o ∈ r.2, other o

section

variable {J : Type} {ts : List (Key × J)} {other : NodeOut D → Prop} {c : Node D J} {r : Moved D J}

/-! ## Pools -/

/-- The instances and the goroutines of a host. -/
def pool (h : NodeHost D J) : Pool Key (SPB D) J (Msg D) (NodeOut D) :=
  ⟨h.st.spbInstances, h.st.tasks, h.received, h.outs⟩

variable {C : PoolCode Key (SPB D) J (Msg D) (NodeOut D)} {h : NodeHost D J} {s : Node D J}
  {o : List (NodeOut D)}

theorem pool_recv {m : Msg D} (hr : C.Run (pool h))
    (hf : PoolFrame (C.spawn m) C.other h.st (s, o)) :
    C.Run (pool ⟨s, h.received ++ [m], h.outs ++ o⟩) := by
  obtain ⟨ts, hts, hcases⟩ : ∃ ts, s.tasks = h.st.tasks ++ ts ∧ (ts = [] ∨ ts = C.spawn m) := by
    rcases hf.tasks with ht | ht
    · exact ⟨[], by rw [List.append_nil]; exact ht, Or.inl rfl⟩
    · exact ⟨C.spawn m, ht, Or.inr rfl⟩
  have hrun := PoolCode.Run.recv hr hcases hf.outs
  have hspb : s.spbInstances = h.st.spbInstances := hf.spb
  simpa only [pool, hspb, hts] using hrun

theorem pool_other (hr : C.Run (pool h)) (hf : PoolFrame [] C.other h.st (s, o)) :
    C.Run (pool ⟨s, h.received, h.outs ++ o⟩) := by
  have hrun := PoolCode.Run.other hr hf.outs
  have hspb : s.spbInstances = h.st.spbInstances := hf.spb
  have htasks : s.tasks = h.st.tasks := by
    rcases hf.tasks with ht | ht
    · exact ht
    · rw [List.append_nil] at ht
      exact ht
  simpa only [pool, hspb, htasks] using hrun

theorem pool_job {i : ℕ} {k : Key} {j : J} {s' : SPB D} {js : List J} (hr : C.Run (pool h))
    (hi : h.st.tasks[i]? = some (k, j)) (hstep : C.step k (h.st.spbInstances k) j s' js o)
    (hspb : s.spbInstances = Function.update h.st.spbInstances k s')
    (htasks : s.tasks = h.st.tasks.eraseIdx i ++ js.map (k, ·)) :
    C.Run (pool ⟨s, h.received, h.outs ++ o⟩) := by
  have hrun := PoolCode.Run.job hr hi hstep
  simpa only [pool, hspb, htasks] using hrun

/-- **What a step of a node does to its pool**: nothing to the goroutines, or a step of one of them. -/
inductive PoolStep (C : PoolCode Key (SPB D) J (Msg D) (NodeOut D)) (c : Node D J) (a : Act)
    (r : Moved D J) : Prop
  | other : PoolFrame [] C.other c r → PoolStep C c a r
  | task {i : ℕ} {k : Key} {j : J} {s : SPB D} {js : List J} : a = .task i →
      c.tasks[i]? = some (k, j) → C.step k (c.spbInstances k) j s js r.2 →
      r.1.spbInstances = Function.update c.spbInstances k s →
      r.1.tasks = c.tasks.eraseIdx i ++ js.map (k, ·) → PoolStep C c a r

theorem PoolStep.restrict {ok : Key → J → Prop} {a : Act} (h : PoolStep C c a r)
    (hok : ∀ i k j, a = .task i → c.tasks[i]? = some (k, j) → ok k j) :
    PoolStep (C.restrict ok) c a r := by
  cases h with
  | other hf => exact PoolStep.other hf
  | task ha hi hstep hspb htasks => exact PoolStep.task ha hi ⟨hok _ _ _ ha hi, hstep⟩ hspb htasks

/-- A node whose steps are steps of a pool is one, whatever it is handed. -/
theorem pool_local {M : Machine NodeID (Node D J) (Msg D) Act (Event D)}
    {G : Machine.Guard NodeID (Node D J) (Msg D) Act (Event D)} {self : NodeID}
    (hinit : pool (M.start self) = ⟨fun _ => C.init, [], [], []⟩)
    (hrecv : ∀ c m r, M.recv self c m = some r → PoolFrame (C.spawn m) C.other c r)
    (hact : ∀ h a r, M.Local G self h → G self h (.act a) → M.act self h.st a = some r →
      PoolStep C h.st a r) (hl : M.Local G self h) : C.Run (pool h) := by
  induction hl with
  | start =>
    rw [hinit]
    exact PoolCode.Run.start
  | recv _ _ hs ih => exact pool_recv ih (hrecv _ _ _ hs)
  | act hl hg hs ih =>
    cases hact _ _ _ hl hg hs with
    | other hf => exact pool_other ih hf
    | task _ hi hstep hspb htasks => exact pool_job ih hi hstep hspb htasks

end

end S2Pac
