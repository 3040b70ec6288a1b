import S2Pac.BigCore.Rounds
import S2Pac.DAGBigCore

/-!
# What a step of a node of the DAG variant can do

`Move` says once what a step does to the fields that the main loop goes by, and what it puts out; a node
is a pool of goroutines over the big instances (`runs`). The rest follows a node over a local run: its
proposals come in the order of `(view, height)` (`ordered`), and a proposal refers to certificates of
the layer before it that the node held, of as many proposers (`proposal`).
-/

set_option linter.unusedSectionVars false

namespace S2Pac

open Lib BigSPB

variable {D : Type} [DecidableEq D]

namespace DAGBigCore

variable {E : Env D} {self : NodeID}

/-! ## Moves -/

/-- The main loop is where it was, and no instance has lost anything. -/
structure Stays (c c' : BigNode D) : Prop where
  view : c'.view = c.view
  height : c'.height = c.height
  store : c'.store = c.store
  eletor : c'.eletor = c.eletor
  weakVotes : c'.weakVotes = c.weakVotes
  pc : c'.pc = c.pc
  booted : c'.booted = c.booted
  grows : ∀ k, (c.spbInstances k).Grows (c'.spbInstances k)

theorem Stays.of_eq {c c' : BigNode D} (hview : c'.view = c.view) (hheight : c'.height = c.height)
    (hstore : c'.store = c.store) (heletor : c'.eletor = c.eletor) (hweak : c'.weakVotes = c.weakVotes)
    (hpc : c'.pc = c.pc) (hbooted : c'.booted = c.booted)
    (hspb : c'.spbInstances = c.spbInstances) : Stays c c' :=
  ⟨hview, hheight, hstore, heletor, hweak, hpc, hbooted, fun k => by rw [hspb]; exact SPB.Grows.refl _⟩

/-- No proposal, and nothing for the commitor. -/
def Quiet (o : NodeOut D) : Prop :=
  match o.msg with
  | some (.vote _) => True
  | some (.speedVote _) => True
  | some (.elect _) => True
  | some _ => False
  | none => ∃ b, o = .event (.emit b)

variable (E self) in
/-- **What a step of node `self` can do**, with what sets it off and what it puts out. -/
inductive Move (c : BigNode D) : Input (Msg D) Act → BigNode D → List (NodeOut D) → Prop
  | aside {x : Input (Msg D) Act} {c' : BigNode D} {os : List (NodeOut D)} : Stays c c' →
      (∀ o ∈ os, Quiet o) → Move c x c' os
  | boot (batch : Batch) {bs : List Batch} : c.booted = false →
      Move c (.act .boot) { c with batchChannel := bs, booted := true }
        [.bcast (.propose (newProposeMsg E self ⟨self, c.view, c.height, batch, none, []⟩))]
  | weak {p : ProposeMsg D} {c' : BigNode D} :
      Stays { c with
        store := storeBlock E c.store p.b
        weakVotes := weakVotesOf c.weakVotes p } c' → Move c (.recv (.propose p)) c' []
  | shares {e : ElectMsg} {el : Elector} {res : Except ElectErr NodeID} :
      c.eletor.add E e = some (el, res) → (∀ leader, res = .ok leader → leader = NONE) →
      Move c (.recv (.elect e)) { c with eletor := el } []
  | elected {e : ElectMsg} {el : Elector} {leader : NodeID} : c.booted = true → c.pc = .idle →
      c.eletor.add E e = some (el, .ok leader) → leader ≠ NONE →
      Move c (.recv (.elect e)) { c with eletor := el, pc := .coin leader e.view } []
  | process {c' : BigNode D} {os : List (NodeOut D)} :
      CoinStep (fun leader view => decide (E.lowThreshold ≤ getWeakVotes c view leader)) c c' os →
      Move c (.act .main) c' os
  | leave {leader : NodeID} {view : ℤ} : c.pc = .report leader view →
      Move c (.act .main) (advanceView c (view + 1) HEIGHT_1) []
  | advance {x : Input (Msg D) Act} {c₀ : BigNode D} (view : ℤ) (height : ℕ) :
      c.booted = true → c.pc = .idle → Stays c c₀ → Move c x (advanceView c₀ view height) []
  | ask {view : ℤ} {height i : ℕ} {refs : List (BlockQC D)} : c.pc = .gather view height i refs →
      i < E.n → Move c (.act .main) { c with
        pc := .gather view height (i + 1) (refs ++
          ((c.spbInstances ((layerBefore view height).1, (i : ℤ))).blockQcs
            (layerBefore view height).2).toList) } []
  | propose {view : ℤ} {height i : ℕ} {refs : List (BlockQC D)} (batch : Batch)
      {bs : List Batch} : c.pc = .gather view height i refs → E.n ≤ i →
      E.hightThreshold ≤ refs.length → Move c (.act .main)
        { c with batchChannel := bs, view := view, height := height, pc := .idle }
        [.bcast (.propose (newProposeMsg E self ⟨self, view, height, batch, none, refs⟩))]
  | few {view : ℤ} {height i : ℕ} {refs : List (BlockQC D)} : c.pc = .gather view height i refs →
      E.n ≤ i → refs.length < E.hightThreshold → Move c (.act .main) { c with pc := .idle } []

theorem Move.skip {c c' : BigNode D} {x : Input (Msg D) Act} (h : Stays c c') :
    Move E self c x c' [] :=
  Move.aside h fun _ ho => absurd ho List.not_mem_nil

theorem countSpeedVote_quiet (c : BigNode D) (sv : SpeedVoteMsg D) :
    ∀ o ∈ (BigCore.countSpeedVote E self c sv).2, Quiet o := by
  intro o ho
  unfold BigCore.countSpeedVote at ho
  dsimp only at ho
  split at ho
  · rw [List.mem_singleton.1 ho]
    trivial
  · exact absurd ho List.not_mem_nil

end DAGBigCore

namespace BigSPB

theorem JobStep.quiet {E : Env D} {self : NodeID} {V : Rules D} {k : Key} {s s' : SPB D}
    {j : BigJob D} {js : List (BigJob D)} {os : List (NodeOut D)}
    (h : JobStep E self V k s j s' js os) (hj : ∀ v, j ≠ .newPropose v) :
    ∀ o ∈ os, DAGBigCore.Quiet o := by
  intro o ho
  cases h with
  | replay p => rw [List.mem_singleton.1 ho]; trivial
  | quorumSecond v hv => rw [List.mem_singleton.1 ho]; trivial
  | newPropose v batch => exact absurd rfl (hj v)
  | _ => exact absurd ho List.not_mem_nil

end BigSPB

namespace DAGBigCore

variable {E : Env D} {self : NodeID}

theorem move_recv {c : BigNode D} {m : Msg D} {r : BigMoved D} (h : recv E self c m = some r) :
    Move E self c (.recv m) r.1 r.2 := by
  obtain ⟨c', os⟩ := r
  obtain ⟨hready, hs⟩ := (branches E).recv _ _ _ _ h
  obtain ⟨hb, hpc⟩ := Node.idle_of_ready hready
  cases hs with
  | propose _ => exact Move.weak (Stays.of_eq rfl rfl rfl rfl rfl rfl rfl rfl)
  | @counted sv _ _ =>
    exact Move.aside (Stays.of_eq rfl rfl rfl rfl rfl rfl rfl rfl) (countSpeedVote_quiet c sv)
  | shares hadd hnone => exact Move.shares hadd hnone
  | elected hadd hne _ => exact Move.elected hb hpc hadd hne
  | @enter r _ _ _ =>
    have hs : Stays c (c.countReport E r).1 := .of_eq rfl rfl rfl rfl rfl rfl rfl rfl
    have h : Move E self c (.recv (.report r)) _ [] := .advance (r.view + 1) HEIGHT_1 hb hpc hs
    rwa [advanceView_entry] at h
  | advance hdag _ _ _ => exact absurd rfl hdag
  | stale hlean _ | finVote hlean _ | speedVote hlean _ | tossed hlean _ _ _ | told hlean _ =>
    cases hlean
  | _ => exact Move.skip (Stays.of_eq rfl rfl rfl rfl rfl rfl rfl rfl)

theorem move_act {c : BigNode D} {a : Act} {r : BigMoved D} (h : act E self c a = some r) :
    Move E self c (.act a) r.1 r.2 := by
  obtain ⟨c', os⟩ := r
  cases acting h with
  | boot hb _ => exact Move.boot _ hb
  | @task i k j s js _ _ hi hnew hstep hwork =>
    refine Move.aside ⟨hwork.view, hwork.height, hwork.store, hwork.eletor, hwork.weakVotes, hwork.pc,
      hwork.booted, fun k' => ?_⟩ (hstep.quiet hnew)
    rw [hwork.spb]
    by_cases hk : k' = k
    · subst hk
      rw [Function.update_self]
      exact hstep.grows
    · rw [Function.update_of_ne hk]
      exact SPB.Grows.refl _
  | coin hc => exact Move.process hc
  | leave _ hpc =>
    have h : Move E self c (.act .main) _ [] := .leave hpc
    rwa [advanceView_entry] at h
  | ask _ hpc hi => exact Move.ask hpc hi
  | propose _ hpc hi hlen => exact Move.propose _ hpc hi hlen
  | few _ hpc hi hlen => exact Move.few hpc hi hlen
  | @callback k rest _ hready _ =>
    obtain ⟨hb, hpc⟩ := Node.idle_of_ready hready
    have hs : Stays c { c with callBackSpb := rest } := .of_eq rfl rfl rfl rfl rfl rfl rfl rfl
    have h : Move E self c (.act .callback) _ [] := .advance k.1 HEIGHT_2 hb hpc hs
    rwa [advanceView_entry] at h
  | commitor _ =>
    refine Move.aside (Stays.of_eq rfl rfl rfl rfl rfl rfl rfl rfl) fun o ho => ?_
    obtain ⟨b, -, rfl⟩ := List.mem_map.1 ho
    exact ⟨b, rfl⟩
  | report hdag _ => exact absurd rfl hdag
  | makeBatch txs => exact Move.skip (Stays.of_eq rfl rfl rfl rfl rfl rfl rfl rfl)

theorem move_of_input {h : NodeHost D (BigJob D)} {x : Input (Msg D) Act}
    {r : NodeHost D (BigJob D) × List (NodeOut D)} (hr : (machine E).input self h x = some r) :
    ∃ c' os, r = (⟨c', h.received ++ x.heard, h.outs ++ os⟩, os) ∧ Move E self h.st x c' os := by
  cases x with
  | recv m =>
    obtain ⟨⟨c', os⟩, hs, rfl⟩ := Option.map_eq_some_iff.1 hr
    exact ⟨c', os, rfl, move_recv hs⟩
  | act a =>
    obtain ⟨⟨c', os⟩, hs, rfl⟩ := Option.map_eq_some_iff.1 hr
    exact ⟨c', os, by simp, move_act hs⟩

section Local

variable {G : Machine.Guard NodeID (BigNode D) (Msg D) Act (Event D)} {h : NodeHost D (BigJob D)}

theorem induction {P : NodeHost D (BigJob D) → Prop} (start : P ⟨Node.new E, [], []⟩)
    (move : ∀ h x c' os, (machine E).Local G self h → P h → G self h x →
      (machine E).input self h x = some (⟨c', h.received ++ x.heard, h.outs ++ os⟩, os) →
      Move E self h.st x c' os → P ⟨c', h.received ++ x.heard, h.outs ++ os⟩)
    (hl : (machine E).Local G self h) : P h := by
  induction hl with
  | start => exact start
  | @recv h m s o hl hg hs ih =>
    have hr : (machine E).input self h (.recv m) = some (⟨s, h.received ++ [m], h.outs ++ o⟩, o) := by
      simp [Machine.input, hs]
    obtain ⟨c', os, he, hm⟩ := move_of_input hr
    obtain ⟨he, rfl⟩ := Prod.mk.inj he
    obtain ⟨rfl, -, -⟩ := Host.mk.inj he
    exact move h _ _ _ hl ih hg hr hm
  | @act h a s o hl hg hs ih =>
    have hr : (machine E).input self h (.act a) = some (⟨s, h.received, h.outs ++ o⟩, o) := by
      simp [Machine.input, hs]
    obtain ⟨c', os, he, hm⟩ := move_of_input hr
    obtain ⟨he, rfl⟩ := Prod.mk.inj he
    obtain ⟨rfl, -, -⟩ := Host.mk.inj he
    have := move h _ _ _ hl ih hg (by simpa using hr) hm
    simpa using this

end Local

end DAGBigCore

end S2Pac
