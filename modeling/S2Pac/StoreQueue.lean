import S2Pac.Storing

/-!
# The store as a goroutine of its own

`store/store.go`: reads and writes are requests on a channel, and one goroutine answers them in their
order. `storeBlock` puts its request on the channel and goes on when it is done; so does `getBlock`. In
the meantime the goroutines of the instances and the commitor go on.

`Served` is a node with this channel. Only the goroutine of the store touches the data base, which is the
store of the node; `Run` waits inside `storeBlock` (`storing`), and whoever reads works with the answers
that it has been given. That a reader waits for a fresh answer only takes runs away, and so does the
capacity of the channel; both are left out.
-/

set_option linter.unusedSectionVars false

namespace S2Pac

open Lib

variable {D : Type} [DecidableEq D] {J : Type}

/-- The goroutines that read the store: the main loop, the commitor, and any other. -/
inductive Reader where
  | run
  | commitor
  | other (i : ℕ)
  deriving DecidableEq

/-- `storeReq`. -/
inductive StoreReq (D : Type) where
  | read (reader : Reader) (digest : D)
  | write (b : Block D)

/-- A node with the channel of its store. -/
structure Served (D J : Type) where
  /-- The node; its store is the data base. -/
  node : Node D J
  reqCh : List (StoreReq D)
  /-- The proposal whose block `Run` is storing. -/
  storing : Option (ProposeMsg D)
  /-- The last answers that the readers have been given. -/
  answers : Reader → Store D
  /-- The messages that passed the checks of their handlers, oldest first. -/
  accepted : List (Msg D)
  /-- What the node has put out. -/
  outs : List (NodeOut D)

namespace Served

/-- The goroutine of the store answers a request. -/
def serve (E : Env D) (s : Served D J) (rest : List (StoreReq D)) : StoreReq D → Served D J
  | .read reader digest =>
    { s with
      reqCh := rest
      answers := Function.update s.answers reader
        (Function.update (s.answers reader) digest (getBlock s.node.store digest)) }
  | .write b =>
    { s with reqCh := rest, node := { s.node with store := storeBlock E s.node.store b } }

/-- The goroutine of the store answers the first `n` requests. -/
def drain (E : Env D) : ℕ → Served D J → Served D J
  | 0, s => s
  | n + 1, s =>
    match s.reqCh with
    | [] => s
    | req :: rest => drain E n (s.serve E rest req)

/-- The node after a step that is not one of the store. -/
def move (s : Served D J) (r : Moved D J) : Served D J :=
  { s with node := { r.1 with store := s.node.store }, outs := s.outs ++ r.2 }

/-- The reader that a step of the node is one of. -/
def readerOf : Act → Reader
  | .commitor => .commitor
  | .task i => .other i
  | _ => .run

/-- The step is one of the main loop. -/
def ofRun : Act → Bool
  | .boot => true
  | .main => true
  | .callback => true
  | _ => false

variable (E : Env D) (docG : Bool) (M : Machine NodeID (Node D J) (Msg D) Act (Event D))
  (me : NodeID)

/-- Before the first step. -/
def start : Served D J := ⟨M.init me, [], none, fun _ _ => none, [], []⟩

/-- One step of a node with the channel of its store. -/
inductive Step : Served D J → Served D J → Prop
  /-- A reader puts a request on the channel. -/
  | read {s : Served D J} (reader : Reader) (digest : D) :
      Step s { s with reqCh := s.reqCh ++ [.read reader digest] }
  /-- `Run` has checked a proposal and calls `storeBlock`. -/
  | write {s : Served D J} {p : ProposeMsg D} : s.storing = none → s.node.ready = true →
      Msg.passes E docG (.propose p) = true →
      Step s { s with reqCh := s.reqCh ++ [.write p.b], storing := some p }
  /-- The goroutine of the store answers the first request. -/
  | serve {s : Served D J} {req : StoreReq D} {rest : List (StoreReq D)} : s.reqCh = req :: rest →
      Step s (s.serve E rest req)
  /-- `storeBlock` returns, its request being done, and the rest of the handler follows. `Run` is the
  only one that writes. -/
  | stored {s : Served D J} {p : ProposeMsg D} {r : Moved D J} : s.storing = some p →
      (∀ b, .write b ∉ s.reqCh) → M.recv me s.node (.propose p) = some r →
      Step s { s.move r with storing := none, accepted := s.accepted ++ [.propose p] }
  /-- `Run` handles a message that it does not store. -/
  | recv {s : Served D J} {m : Msg D} {r : Moved D J} : s.storing = none →
      (∀ p, m = .propose p → m.passes E docG = false) → M.recv me s.node m = some r →
      Step s { s.move r with accepted := s.accepted ++ [m].filter (Msg.passes E docG) }
  /-- Any other step, with the answers that the goroutine has. -/
  | act {s : Served D J} {a : Act} {r : Moved D J} : (ofRun a = true → s.storing = none) →
      M.act me { s.node with store := s.answers (readerOf a) } a = some r → Step s (s.move r)

/-- Runs from one state to another. -/
abbrev Steps : Served D J → Served D J → Prop := Relation.ReflTransGen (Step E docG M me)

/-- The states that can be reached. -/
abbrev Reach (s : Served D J) : Prop := Steps E docG M me (start M me) s

/-- **What holds in every reachable state.** -/
structure Inv (spawn : Msg D → List (Key × J))
    (job : NodeID → Key → SPB D → J → SPB D → List J → List (NodeOut D) → Prop)
    (s : Served D J) : Prop where
  run : (freeCode E spawn (job me)).Run (s.node.inside s.accepted s.outs)
  keys : ∀ d b, getBlock s.node.store d = some b → b.hash E = d
  found : ∀ p, Msg.propose p ∈ s.accepted → getBlock s.node.store (p.b.hash E) ≠ none
  storing : ∀ p, s.storing = some p → Msg.passes E docG (.propose p) = true ∧
    (.write p.b ∈ s.reqCh ∨ getBlock s.node.store (p.b.hash E) ≠ none)

variable {E docG M me}

theorem Step.stays {s s' : Served D J} (h : Step E docG M me s s') {d : D}
    (hd : getBlock s.node.store d ≠ none) : getBlock s'.node.store d ≠ none := by
  cases h with
  | @serve req rest _ =>
    cases req with
    | read reader digest => exact hd
    | write b =>
      by_cases he : d = b.hash E
      · subst he
        simp [Served.serve, getBlock, storeBlock]
      · simpa [Served.serve, getBlock, storeBlock, he] using hd
  | _ => exact hd

theorem Steps.stays {s s' : Served D J} (h : Steps E docG M me s s') {d : D}
    (hd : getBlock s.node.store d ≠ none) : getBlock s'.node.store d ≠ none := by
  induction h with
  | refl => exact hd
  | tail _ hs ih => exact hs.stays ih

section Invariant

variable {spawn : Msg D → List (Key × J)}
  {job : NodeID → Key → SPB D → J → SPB D → List J → List (NodeOut D) → Prop}
  {second : Node D J → NodeID → ℤ → Bool} (hM : Conducts E docG spawn job second M)
include hM

theorem Inv.init : Inv E docG me spawn job (start M me) where
  run := by
    rw [start, hM.init]
    exact PoolCode.Run.start
  keys d b hb := by simp [start, hM.init, Node.new, getBlock] at hb
  found p hp := absurd hp List.not_mem_nil
  storing p hp := by cases hp

theorem Inv.serve {s : Served D J} (hi : Inv E docG me spawn job s) {req : StoreReq D}
    {rest : List (StoreReq D)} (hreq : s.reqCh = req :: rest) :
    Inv E docG me spawn job (s.serve E rest req) := by
  have hstep : Step E docG M me s (s.serve E rest req) := Step.serve hreq
  have hwrite : ∀ b, .write b ∈ s.reqCh →
      .write b ∈ rest ∨ getBlock (s.serve E rest req).node.store (b.hash E) ≠ none := by
    intro b hb
    rw [hreq] at hb
    rcases List.mem_cons.1 hb with rfl | hb
    · exact Or.inr (by simp [Served.serve, getBlock, storeBlock])
    · exact Or.inl hb
  have hstoring : ∀ p, s.storing = some p → Msg.passes E docG (.propose p) = true ∧
      (.write p.b ∈ rest ∨ getBlock (s.serve E rest req).node.store (p.b.hash E) ≠ none) := by
    intro p hp
    obtain ⟨hpass, hp⟩ := hi.storing p hp
    exact ⟨hpass, hp.elim (hwrite p.b) fun hd => Or.inr (hstep.stays hd)⟩
  cases req with
  | read reader digest => exact ⟨hi.run, hi.keys, hi.found, hstoring⟩
  | write b =>
    refine ⟨hi.run, fun d b' hb' => ?_, fun p hp => hstep.stays (hi.found p hp), hstoring⟩
    rcases getBlock_storeBlock hb' with ⟨rfl, rfl⟩ | hb'
    · rfl
    · exact hi.keys d b' hb'

theorem Inv.next {s s' : Served D J} (hi : Inv E docG me spawn job s)
    (h : Step E docG M me s s') : Inv E docG me spawn job s' := by
  cases h with
  | read reader digest =>
    exact ⟨hi.run, hi.keys, hi.found, fun p hp =>
      (hi.storing p hp).imp_right (Or.imp_left (List.mem_append_left _))⟩
  | @write p hnone _ hpass =>
    refine ⟨hi.run, hi.keys, hi.found, fun p' hp' => ?_⟩
    cases hp'
    exact ⟨hpass, Or.inl (List.mem_append_right _ (List.mem_singleton_self _))⟩
  | serve hreq => exact hi.serve hM hreq
  | @stored p r hp hdone hr =>
    -- the request was on the channel once, and it is there no longer
    obtain ⟨hpass, hstored⟩ := hi.storing p hp
    have hstored := hstored.resolve_left (hdone p.b)
    refine ⟨?_, hi.keys, fun p' hp' => ?_, fun _ h => nomatch h⟩
    · have hrun := (hM.recv _ _ _ _ hr).run hi.run
      rwa [List.filter_cons_of_pos hpass, List.filter_nil] at hrun
    · rcases List.mem_append.1 hp' with hp' | hp'
      · exact hi.found p' hp'
      · cases List.mem_singleton.1 hp'
        exact hstored
  | @recv m r hnone hm hr =>
    refine ⟨(hM.recv _ _ _ _ hr).run hi.run, hi.keys, fun p hp => ?_, fun p hp => ?_⟩
    · rcases List.mem_append.1 hp with hp | hp
      · exact hi.found p hp
      · obtain ⟨hmem, hpass⟩ := List.mem_filter.1 hp
        rw [List.mem_singleton.1 hmem] at hpass
        exact absurd hpass (by simp [hm p (List.mem_singleton.1 hmem).symm])
    · exact absurd (hnone.symm.trans hp) (by simp)
  | act _ hr => exact ⟨(hM.act _ _ _ _ hr).run hi.run, hi.keys, hi.found, hi.storing⟩

theorem Inv.reach {s : Served D J} (h : Reach E docG M me s) :
    Inv E docG me spawn job s := by
  induction h with
  | refl => exact Inv.init hM
  | tail _ hs ih => exact ih.next hM hs

end Invariant

/-! ## Answers -/

theorem serve_reqCh (s : Served D J) (rest : List (StoreReq D)) (req : StoreReq D) :
    (s.serve E rest req).reqCh = rest := by
  cases req <;> rfl

theorem drain_steps (n : ℕ) (s : Served D J) : Steps E docG M me s (s.drain E n) := by
  induction n generalizing s with
  | zero => exact Relation.ReflTransGen.refl
  | succ n ih =>
    unfold drain
    split
    · exact Relation.ReflTransGen.refl
    · next req rest hreq => exact Relation.ReflTransGen.head (Step.serve hreq) (ih _)

/-- A request is answered after those before it. -/
theorem drain_succ {s : Served D J} {i : ℕ} {req : StoreReq D} (h : s.reqCh[i]? = some req) :
    ∃ rest, (s.drain E i).reqCh = req :: rest ∧
      s.drain E (i + 1) = (s.drain E i).serve E rest req := by
  induction i generalizing s with
  | zero =>
    obtain ⟨rest, hrest⟩ : ∃ rest, s.reqCh = req :: rest := by
      cases hch : s.reqCh with
      | nil => simp [hch] at h
      | cons req' rest =>
        rw [hch] at h
        exact ⟨rest, by rw [List.getElem?_cons_zero, Option.some.injEq] at h; rw [h]⟩
    exact ⟨rest, hrest, by simp [drain, hrest]⟩
  | succ i ih =>
    cases hch : s.reqCh with
    | nil => simp [hch] at h
    | cons req' rest' =>
      rw [hch, List.getElem?_cons_succ, ← serve_reqCh (E := E) s rest' req'] at h
      obtain ⟨rest, hrest, hserve⟩ := ih h
      have hd (n : ℕ) : s.drain E (n + 1) = (s.serve E rest' req').drain E n := by
        rw [drain, hch]
      exact ⟨rest, by rw [hd]; exact hrest, by rw [hd, hd]; exact hserve⟩

/-- `getBlock` finds what an instance has recorded: from a state on in which an instance has recorded the
digest, -/
structure Resolves (E : Env D) (docG : Bool)
    (M : Machine NodeID (Node D J) (Msg D) Act (Event D)) (me : NodeID) (s : Served D J) (d : D) :
    Prop where
  /-- every read of it that comes up is answered with a block of that hash, whatever has happened in
  between, -/
  answer : ∀ s', Steps E docG M me s s' → ∀ reader rest, s'.reqCh = .read reader d :: rest →
    ∃ b, (s'.serve E rest (.read reader d)).answers reader d = some b ∧ b.hash E = d
  /-- and every read that is on the channel comes up when those before it are answered. -/
  returns : ∀ s', Steps E docG M me s s' → ∀ i reader, s'.reqCh[i]? = some (.read reader d) →
    ∃ b, (s'.drain E (i + 1)).answers reader d = some b ∧ b.hash E = d

theorem Resolves.of_answer {s : Served D J} {d : D}
    (h : ∀ s', Steps E docG M me s s' → ∀ reader rest, s'.reqCh = .read reader d :: rest →
      ∃ b, (s'.serve E rest (.read reader d)).answers reader d = some b ∧ b.hash E = d) :
    Resolves E docG M me s d := by
  refine ⟨h, fun s' hs i reader hi => ?_⟩
  obtain ⟨rest, hrest, hserve⟩ := drain_succ (E := E) hi
  rw [hserve]
  exact h _ (hs.trans (drain_steps i s')) reader rest hrest

theorem resolves {spawn : Msg D → List (Key × J)}
    {job : NodeID → Key → SPB D → J → SPB D → List J → List (NodeOut D) → Prop}
    {second : Node D J → NodeID → ℤ → Bool} (hM : Conducts E docG spawn job second M)
    {s : Served D J} (hr : Reach E docG M me s) {k : Key} {height : ℕ} (hh : height ≤ HEIGHT_2)
    (hz : (s.node.spbInstances k).blockHash height ≠ E.zero) :
    Resolves E docG M me s ((s.node.spbInstances k).blockHash height) := by
  have hi := Inv.reach hM hr
  have hd : getBlock s.node.store ((s.node.spbInstances k).blockHash height) ≠ none := by
    rcases hM.recorded _ _ hi.run k height hh with h0 | ⟨p, hp, -, -, he⟩
    · exact absurd h0 hz
    · rw [show (s.node.spbInstances k).blockHash height = p.b.hash E from he]
      exact hi.found p hp
  refine Resolves.of_answer fun s' hs reader rest _ => ?_
  obtain ⟨b, hb⟩ := Option.ne_none_iff_exists'.1 (Steps.stays hs hd)
  exact ⟨b, by simp [serve, hb], (Inv.reach hM (hr.trans hs)).keys _ b hb⟩

end Served

/-- **Recorded digests always resolve**, in the three protocols and for every interleaving of the
goroutines with that of the store. -/
theorem recorded_digests_resolve (E : Env D) :
    (∀ me s, Served.Reach E true (Core.machine E) me s → ∀ k height, height ≤ HEIGHT_2 →
      (s.node.spbInstances k).blockHash height ≠ E.zero →
      Served.Resolves E true (Core.machine E) me s ((s.node.spbInstances k).blockHash height)) ∧
    (∀ me s, Served.Reach E false (BigCore.machine E) me s → ∀ k height, height ≤ HEIGHT_2 →
      (s.node.spbInstances k).blockHash height ≠ E.zero →
      Served.Resolves E false (BigCore.machine E) me s ((s.node.spbInstances k).blockHash height)) ∧
    ∀ me s, Served.Reach E true (DAGBigCore.machine E) me s → ∀ k height, height ≤ HEIGHT_2 →
      (s.node.spbInstances k).blockHash height ≠ E.zero →
      Served.Resolves E true (DAGBigCore.machine E) me s
        ((s.node.spbInstances k).blockHash height) :=
  ⟨fun _ _ hr _ _ hh hz => Served.resolves (Core.conducts E) hr hh hz,
    fun _ _ hr _ _ hh hz => Served.resolves (BigCore.conducts E) hr hh hz,
    fun _ _ hr _ _ hh hz => Served.resolves (DAGBigCore.conducts E) hr hh hz⟩

namespace OneProposal

open Served

/-- The lean protocol with four nodes. -/
def M : Machine NodeID (Node ℕ (SpbJob ℕ)) (Msg ℕ) Act (Event ℕ) :=
  Core.machine (Env.plain 4 fun _ => 0)

def p : ProposeMsg ℕ :=
  newProposeMsg (Env.plain 4 fun _ => 0) 1 ⟨1, 0, HEIGHT_1, ⟨-1, []⟩, none, []⟩

/-- Node 0 has started. -/
def started : Served ℕ (SpbJob ℕ) :=
  (start M 0).move ((M.act 0 (start M 0).node .boot).get (by decide +kernel))

/-- `Run` has called `storeBlock` for the block of node 1, -/
def writing : Served ℕ (SpbJob ℕ) :=
  { started with reqCh := started.reqCh ++ [.write p.b], storing := some p }

/-- the block is in the data base, -/
def written : Served ℕ (SpbJob ℕ) := writing.serve (Env.plain 4 fun _ => 0) [] (.write p.b)

/-- the handler has returned, -/
def handled : Served ℕ (SpbJob ℕ) :=
  { written.move ((M.recv 0 written.node (.propose p)).get (by decide +kernel)) with
    storing := none
    accepted := written.accepted ++ [.propose p] }

/-- and the instance has recorded the hash. -/
def recorded : Served ℕ (SpbJob ℕ) :=
  handled.move ((M.act 0 { handled.node with store := handled.answers (.other 0) }
    (.task 0)).get (by decide +kernel))

theorem reach : Reach (Env.plain 4 fun _ => 0) true M 0 recorded := by
  have h₁ : Step (Env.plain 4 fun _ => 0) true M 0 (start M 0) started :=
    Step.act (a := .boot) (fun _ => rfl) (Option.some_get _).symm
  have h₂ : Step (Env.plain 4 fun _ => 0) true M 0 started writing :=
    Step.write rfl (by decide +kernel) (by decide +kernel)
  have h₃ : Step (Env.plain 4 fun _ => 0) true M 0 writing written := Step.serve rfl
  have h₄ : Step (Env.plain 4 fun _ => 0) true M 0 written handled :=
    Step.stored rfl (fun b hb => absurd hb List.not_mem_nil) (Option.some_get _).symm
  have h₅ : Step (Env.plain 4 fun _ => 0) true M 0 handled recorded :=
    Step.act (a := .task 0) (fun h => nomatch h) (Option.some_get _).symm
  exact ((((Relation.ReflTransGen.single h₁).tail h₂).tail h₃).tail h₄).tail h₅

end OneProposal

theorem recorded_digests_resolve_one :
    (OneProposal.recorded.node.spbInstances (0, 1)).blockHash HEIGHT_1 ≠ 0 ∧
      Served.Resolves (Env.plain 4 fun _ => 0) true (Core.machine (Env.plain 4 fun _ => 0)) 0
        OneProposal.recorded
        ((OneProposal.recorded.node.spbInstances (0, 1)).blockHash HEIGHT_1) := by
  have hz : (OneProposal.recorded.node.spbInstances (0, 1)).blockHash HEIGHT_1 ≠ 0 := by
    decide +kernel
  exact ⟨hz, (recorded_digests_resolve _).1 0 _ OneProposal.reach (0, 1) HEIGHT_1 (by decide) hz⟩

end S2Pac
