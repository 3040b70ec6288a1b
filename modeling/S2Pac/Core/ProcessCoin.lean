import S2Pac.Slots

/-!
# `processCoin` of the lean protocol, once and all or nothing

`coinViewFlags` is set in the last line of `processCoin`, after the block has gone to the commitor and
the report has gone out. A view is nevertheless handed over once and reported once, whatever coins come
(`Turns.handed_once`), since the main loop takes no coin before the call has ended.

A call that ends in the error of `getBlock` has moved nothing but the main loop. What the node is after
it, it is also by the steps of its goroutines and of its commitor alone, had the call not been made
(`Core.steps_home`).
-/

set_option linter.unusedSectionVars false

namespace S2Pac

open Lib

variable {D : Type} [DecidableEq D] {J : Type}

/-- A block of the view is handed to `Commit`. -/
def isHandedOf (view : ℤ) : NodeOut D → Bool
  | .event (.handed _ v _ _) => decide (v = view)
  | _ => false

/-- The node with its main loop at the head. -/
def Node.home (c : Node D J) : Node D J := { c with pc := .idle }

/-- The host with its main loop at the head. -/
def Host.home (h : NodeHost D J) : NodeHost D J := ⟨h.st.home, h.received, h.outs⟩

/-- The steps that are taken while the main loop is in `processCoin`. -/
def InCall : Machine.Guard NodeID (Node D J) (Msg D) Act (Event D) :=
  fun _ h _ => (Turns.busy h.st.pc).isSome = true

instance (i : NodeID) (h : NodeHost D J) (x : Input (Msg D) Act) : Decidable (InCall i h x) :=
  inferInstanceAs (Decidable ((Turns.busy h.st.pc).isSome = true))

/-- The steps beside the main loop: those of the goroutines, of the commitor and of the pool. -/
def Beside : Machine.Guard NodeID (Node D J) (Msg D) Act (Event D) :=
  fun _ _ x => ∃ a, x = .act a ∧ a ≠ .main

/-- `processCoin` has not gone further than `getBlock`. -/
def Pc.Testing : Pc D → Prop
  | .coin _ _ => True
  | .decide _ _ => True
  | .fetch _ _ _ => True
  | _ => False

/-! ## At most once -/

theorem Announced.msg_ne_none {E : Env D} {self : NodeID} {res : Except ElectErr NodeID} {view : ℤ}
    {o : NodeOut D} (h : Announced E self res view o) : o.msg ≠ none := by
  obtain ⟨leader, -, -, rfl⟩ := h
  exact Option.some_ne_none _

namespace Turns

variable {E : Env D} {M : Machine NodeID (Node D J) (Msg D) Act (Event D)}
  {G : Machine.Guard NodeID (Node D J) (Msg D) Act (Event D)} {self : NodeID} {h : NodeHost D J}

theorem countP_handed_of_msg {view : ℤ} {os : List (NodeOut D)} (h : ∀ o ∈ os, o.msg ≠ none) :
    os.countP (isHandedOf view) = 0 := by
  refine List.countP_eq_zero.2 fun o ho hc => ?_
  cases o with
  | event e => exact h _ ho rfl
  | _ => cases hc

theorem countP_handed_emit (view : ℤ) (bs : List (Block D)) :
    (bs.map fun b => (.event (.emit b) : NodeOut D)).countP (isHandedOf view) = 0 := by
  refine List.countP_eq_zero.2 fun o ho => ?_
  obtain ⟨b, -, rfl⟩ := List.mem_map.1 ho
  exact Bool.false_ne_true

theorem reporting_of_coinStep {second : NodeID → ℤ → Bool} {c c' : Node D J}
    {os : List (NodeOut D)} (h : CoinStep second c c' os) : reporting c.pc = none := by
  cases h with
  | speed hpc _ => rw [hpc]; rfl
  | slow hpc => rw [hpc]; rfl
  | second hpc _ => rw [hpc]; rfl
  | undecided hpc _ => rw [hpc]; rfl
  | missing hpc _ => rw [hpc]; rfl
  | found hpc _ => rw [hpc]; rfl
  | handed hpc _ => rw [hpc]; rfl

/-- **A node that keeps `coinViewFlags` hands over at most one block of a view.** Between the `Commit`
and the flag the main loop is at the report of the view. -/
theorem handed_once (hM : Turns E true M) (hl : M.Local G self h) (view : ℤ) :
    h.outs.countP (isHandedOf view) ≤ 1 ∧ (h.outs.countP (isHandedOf view) ≠ 0 →
      h.st.coinViewFlags view = true ∨ (reporting h.st.pc).map Prod.fst = some view) := by
  refine hM.induction (P := fun h => h.outs.countP (isHandedOf view) ≤ 1 ∧
    (h.outs.countP (isHandedOf view) ≠ 0 →
      h.st.coinViewFlags view = true ∨ (reporting h.st.pc).map Prod.fst = some view))
    ⟨by simp, by simp⟩ ?_ hl
  intro h x c' os hl ⟨ih₁, ih₂⟩ ht
  -- the flag is unset as long as the main loop is busy with the view
  have hflag := (hM.report_once hl view).2.2
  rw [List.countP_append]
  cases ht with
  | aside hk _ ho =>
    rw [countP_handed_of_msg fun o hm => (ho o hm).msg_ne_none, hk.coinViewFlags, hk.pc]
    exact ⟨ih₁, ih₂⟩
  | store hk _ => rw [hk.coinViewFlags, hk.pc]; exact ⟨ih₁, ih₂⟩
  | shares _ ho =>
    rw [countP_handed_of_msg fun o hm => (ho o hm).msg_ne_none]
    exact ⟨ih₁, ih₂⟩
  | elected hpc _ _ _ ho =>
    rw [countP_handed_of_msg fun o hm => (ho o hm).msg_ne_none]
    refine ⟨ih₁, fun hne => Or.inl ((ih₂ hne).resolve_right ?_)⟩
    rw [hpc]
    simp [reporting]
  | told _ hpc _ =>
    refine ⟨ih₁, fun hne => Or.inl ((ih₂ hne).resolve_right ?_)⟩
    rw [hpc]
    simp [reporting]
  | process hp =>
    have hset (hne : h.outs.countP (isHandedOf view) ≠ 0) : h.st.coinViewFlags view = true := by
      refine (ih₂ hne).resolve_right ?_
      rw [reporting_of_coinStep hp]
      simp
    cases hp with
    | @handed leader v height b cm hpc _ =>
      by_cases hv : v = view
      · subst hv
        -- the call is the first one to get here: the flag is unset
        have hzero : h.outs.countP (isHandedOf v) = 0 := by
          by_contra hne
          exact Bool.false_ne_true ((hflag (by rw [hpc]; rfl)).symm.trans (hset hne))
        rw [hzero]
        exact ⟨by simp [isHandedOf], fun _ => Or.inr rfl⟩
      · simp only [isHandedOf, hv, decide_false, List.countP_cons, List.countP_nil]
        exact ⟨ih₁, fun hne => Or.inl (hset hne)⟩
    | _ => exact ⟨ih₁, fun hne => Or.inl (hset hne)⟩
  | @report leader v hpc =>
    refine ⟨by simpa [isHandedOf] using ih₁, fun hne => Or.inl ?_⟩
    by_cases hv : view = v
    · subst hv
      simp
    · have hne' : h.outs.countP (isHandedOf view) ≠ 0 := by simpa [isHandedOf] using hne
      have hf := (ih₂ hne').resolve_right (by rw [hpc]; simpa [reporting] using Ne.symm hv)
      simpa [Function.update_of_ne hv] using hf
  | commitor _ => rw [countP_handed_emit]; exact ⟨ih₁, ih₂⟩
  | _ => exact ⟨ih₁, ih₂⟩

end Turns

/-! ## A call that fails -/

@[simp] theorem Node.home_getBatch (c : Node D J) :
    c.home.getBatch = (c.getBatch.1, c.getBatch.2.home) := by
  unfold Node.getBatch
  rw [show c.home.batchChannel = c.batchChannel from rfl]
  split <;> rfl

namespace Core

variable {E : Env D} {self : NodeID}

/-- A goroutine does not look at where the main loop is. -/
theorem runJob_home (c : Node D (SpbJob D)) (k : Key) (j : SpbJob D) :
    runJob E self c.home k j = ((runJob E self c k j).1.home, (runJob E self c k j).2) := by
  have hspb : c.home.spbInstances = c.spbInstances := rfl
  cases j with
  | propose p =>
    simp only [runJob, processProposeMsg, hspb]
    split
    · rfl
    · split
      · split
        · rfl
        · split <;> rfl
      · rfl
  | replay p => rfl
  | vote v =>
    simp only [runJob, processVoteMsg, hspb]
    split
    · rfl
    · split <;> rfl
  | quorum v =>
    simp only [runJob, quorum, Node.generatorBlock, Node.home_getBatch]
    split <;> rfl
  | finVote fv =>
    simp only [runJob, processFinVoteMsg, hspb]
    split
    · rfl
    · split
      · rfl
      · split <;> rfl
  | speedVote sv =>
    simp only [runJob, processSpeedVoteMsg, hspb]
    split
    · rfl
    · split <;> rfl
  | speedCert => rfl

theorem act_home {c : Node D (SpbJob D)} {a : Act} {r : Moved D (SpbJob D)}
    (h : act E self c a = some r) (ha : a ≠ .main) :
    r.1.pc = c.pc ∧ act E self c.home a = some (r.1.home, r.2) := by
  have hcrash : c.home.crashed = c.crashed := rfl
  unfold act at h ⊢
  rw [hcrash]
  split at h
  · cases h
  · next hc =>
    rw [if_neg hc]
    cases a with
    | boot =>
      dsimp only [Node.boot] at h ⊢
      split at h
      · cases h
      · next hb =>
        rw [if_neg (show ¬ (c.home.booted = true ∨ self < E.faults) from hb)]
        cases h
        obtain ⟨bs, hbs⟩ := c.getBatch_eq
        rw [Node.generatorBlock, Node.generatorBlock, Node.home_getBatch, hbs]
        exact ⟨rfl, rfl⟩
    | task i =>
      dsimp only at h ⊢
      rw [show c.home.tasks = c.tasks from rfl]
      split at h
      · cases h
      · next k j hi =>
        obtain ⟨s, js, -, hwork⟩ := step_of_runJob (Option.some.inj h)
        obtain rfl := Option.some.inj h
        exact ⟨hwork.pc, congrArg some (runJob_home { c with tasks := c.tasks.eraseIdx i } k j)⟩
    | main => exact absurd rfl ha
    | callback => cases h
    | commitor =>
      dsimp only [Node.stepCommitor] at h ⊢
      rw [show c.home.store = c.store from rfl, show c.home.commitor = c.commitor from rfl]
      split at h
      · cases h
      · cases h
        exact ⟨rfl, rfl⟩
    | makeBatch txs =>
      cases h
      exact ⟨rfl, rfl⟩

/-- Up to `getBlock` the main loop moves nothing but itself. -/
theorem main_testing {c : Node D (SpbJob D)} {r : Moved D (SpbJob D)}
    (h : act E self c .main = some r) (ht : r.1.pc.Testing) :
    c.pc.Testing ∧ r.1.home = c.home ∧ r.2 = [] := by
  obtain ⟨c', os⟩ := r
  cases acting h with
  | coin hc =>
    cases hc with
    | speed hpc _ | slow hpc | second hpc _ => exact ⟨by rw [hpc]; trivial, rfl, rfl⟩
    | _ => exact ht.elim
  | report _ _ => exact ht.elim
  | leave hV _ | ask hV _ _ | propose hV _ _ _ | few hV _ _ _ => cases hV

/-- **A call up to its `getBlock` is as good as none**: without it the goroutines and the commitor take
the node to the same state. -/
theorem steps_home {h h' : NodeHost D (SpbJob D)}
    (hs : (machine E).LocalSteps InCall self h h') (ht : h'.st.pc.Testing) :
    (machine E).LocalSteps Beside self (Host.home h) (Host.home h') := by
  induction hs with
  | refl => exact Relation.ReflTransGen.refl
  | @tail h₁ h₂ _ hstep ih =>
    obtain ⟨x, r, hg, hr, rfl⟩ := hstep
    cases x with
    | recv m =>
      -- the main loop takes no message during the call
      obtain ⟨r, hm, rfl⟩ := Option.map_eq_some_iff.1 hr
      have hidle := Node.idle_of_ready (handle_of_recv hm).1
      rw [InCall, hidle.2] at hg
      cases hg
    | act a =>
      obtain ⟨⟨c, os⟩, hact, rfl⟩ := Option.map_eq_some_iff.1 hr
      by_cases ha : a = .main
      · subst ha
        obtain ⟨ht₁, hhome, hos⟩ := main_testing hact ht
        have he : Host.home ⟨c, h₁.received, h₁.outs ++ os⟩ = Host.home h₁ := by
          dsimp only at hhome hos
          simp only [Host.home, hhome, hos, List.append_nil]
        dsimp only
        rw [he]
        exact ih ht₁
      · obtain ⟨hpc, hhome⟩ := act_home hact ha
        have ht₁ : h₁.st.pc.Testing := by
          dsimp only at ht hpc
          rwa [hpc] at ht
        have hin : (machine E).input self (Host.home h₁) (.act a) =
            some (Host.home ⟨c, h₁.received, h₁.outs ++ os⟩, os) :=
          Option.map_eq_some_iff.2 ⟨_, hhome, rfl⟩
        exact (ih ht₁).tail ⟨.act a, _, ⟨a, rfl, ha⟩, hin, rfl⟩

/-- What the steps beside the main loop put out: no block is handed over and no report is made. -/
def Quiet (o : NodeOut D) : Prop := (∀ view, isHandedOf view o = false) ∧ ∀ r, o.msg ≠ some (.report r)

theorem quiet_of_msg {o : NodeOut D} {m : Msg D} (ho : o.msg = some m) (hm : ∀ r, m ≠ .report r) :
    Quiet o := by
  refine ⟨fun view => ?_, fun r hr => hm r (Option.some.inj (ho.symm.trans hr))⟩
  cases o with
  | event e => cases ho
  | _ => rfl

theorem quiet_of_aside {o : NodeOut D} (h : Aside o) : Quiet o := by
  obtain ⟨-, m, hm, hb⟩ := h
  refine quiet_of_msg hm fun r hr => ?_
  rw [hr] at hb
  exact hb

theorem act_quiet {c : Node D (SpbJob D)} {a : Act} {r : Moved D (SpbJob D)}
    (h : act E self c a = some r) (ha : a ≠ .main) :
    r.1.coinViewFlags = c.coinViewFlags ∧ ∀ o ∈ r.2, Quiet o := by
  obtain ⟨c', os⟩ := r
  cases turns.act self c a _ h with
  | aside hk _ ho => exact ⟨hk.coinViewFlags, fun o hm => quiet_of_aside (ho o hm)⟩
  | boot batch _ =>
    refine ⟨rfl, fun o ho => ?_⟩
    rw [List.mem_singleton.1 ho]
    exact quiet_of_msg rfl (by simp)
  | process _ => exact absurd rfl ha
  | report _ => exact absurd rfl ha
  | commitor _ =>
    refine ⟨rfl, fun o ho => ?_⟩
    obtain ⟨b, -, rfl⟩ := List.mem_map.1 ho
    exact ⟨fun _ => rfl, fun r hr => by cases hr⟩

/-- **Nothing of the call is left**: `h'` is what the goroutines and the commitor make of `h` without the
call, the flags are those of `h`, and in between no block was handed over and no report was made. -/
structure Undone (E : Env D) (me : NodeID) (h h' : NodeHost D (SpbJob D)) : Prop where
  steps : (machine E).LocalSteps Beside me (Host.home h) h'
  flags : h'.st.coinViewFlags = h.st.coinViewFlags
  outs : ∃ os, h'.outs = h.outs ++ os ∧ ∀ o ∈ os, Quiet o

theorem undone_of_steps {h h' : NodeHost D (SpbJob D)}
    (hs : (machine E).LocalSteps Beside self (Host.home h) h') : Undone E self h h' := by
  induction hs with
  | refl => exact ⟨Relation.ReflTransGen.refl, rfl, [], (List.append_nil _).symm, by simp⟩
  | tail _ hstep ih =>
    obtain ⟨hsteps, hflags, os, houts, hq⟩ := ih
    have hlast := hstep
    obtain ⟨x, r, ⟨a, rfl, ha⟩, hr, rfl⟩ := hlast
    obtain ⟨⟨c, os'⟩, hact, rfl⟩ := Option.map_eq_some_iff.1 hr
    obtain ⟨hf, hq'⟩ := act_quiet hact ha
    refine ⟨hsteps.tail hstep, hf.trans hflags, os ++ os', ?_,
      fun o ho => (List.mem_append.1 ho).elim (hq o) (hq' o)⟩
    dsimp only
    rw [houts, List.append_assoc]

/-- `processCoin(leader, view)`, entered at `h`, returns the error of `getBlock` at `h'`. -/
def Fails (E : Env D) (self leader : NodeID) (view : ℤ) (h h' : NodeHost D (SpbJob D)) : Prop :=
  h.st.pc = .coin leader view ∧ ∃ h₁ height os, (machine E).LocalSteps InCall self h h₁ ∧
    h₁.st.pc = .fetch leader view height ∧
    getBlock h₁.st.store ((h₁.st.spbInstances (view, leader)).blockHash height) = none ∧
    (machine E).input self h₁ (.act .main) = some (h', os)

theorem undone_of_fails {leader : NodeID} {view : ℤ} {h h' : NodeHost D (SpbJob D)}
    (hf : Fails E self leader view h h') : Undone E self h h' ∧ h'.st.pc = .idle := by
  obtain ⟨-, h₁, height, os, hs, hpc, hnone, hlast⟩ := hf
  have hhome := steps_home hs (by rw [hpc]; trivial)
  obtain ⟨r, hact, he⟩ := Option.map_eq_some_iff.1 hlast
  have hr : r = (h₁.st.home, []) := by
    simp only [machine, act, main, hpc, Node.stepCoin, hnone] at hact
    split at hact
    · cases hact
    · exact (Option.some.inj hact).symm
  have he' : h' = Host.home h₁ := by
    rw [hr] at he
    have := (Prod.mk.inj he).1
    rw [← this, Host.home, List.append_nil]
  rw [he']
  exact ⟨undone_of_steps hhome, rfl⟩

end Core

/-- **`processCoin` of the lean protocol, once and all or nothing**: a view is handed over once and
reported once, and a call that fails is as good as none, with the view still open. -/
theorem coin_once_and_atomic {E : Env D} {self : NodeID} {h : NodeHost D (SpbJob D)}
    (hl : (Core.machine E).Local Machine.anyInput self h) :
    (∀ view, h.outs.countP (isHandedOf view) ≤ 1 ∧
      h.outs.countP (Out.carries (Msg.isReportOf view)) ≤ 1) ∧
    ∀ leader view h', Core.Fails E self leader view h h' →
      Core.Undone E self h h' ∧ h'.st.pc = .idle ∧ h'.st.coinViewFlags view = false := by
  refine ⟨fun view => ⟨(Core.turns.handed_once hl view).1, (Core.turns.report_once hl view).1⟩, ?_⟩
  intro leader view h' hf
  obtain ⟨hundone, hidle⟩ := Core.undone_of_fails hf
  refine ⟨hundone, hidle, ?_⟩
  rw [hundone.flags]
  exact (Core.turns.report_once hl view).2.2 (by rw [hf.1]; rfl)

namespace Retried

/-- Node 0 has three speed votes for node 1 in view 0 before any block of node 1, and gets a coin. -/
def early : List (Input (Msg ℕ) Act) :=
  .act .boot :: ([1, 2, 3].map fun a => .recv (.speedVote ⟨a, 1, 0, 0, []⟩)) ++
    List.replicate 4 (.act (.task 0)) ++ [.recv (.randomCoin ⟨1, 0, 2, []⟩)]

def entered : NodeHost ℕ (SpbJob ℕ) :=
  (Core.machine (Env.plain 4 fun _ => 1)).feed Machine.anyInput 0
    ((Core.machine (Env.plain 4 fun _ => 1)).start 0) early

/-- It goes by `SpeedCert()`, and does not find the block. -/
def asked : NodeHost ℕ (SpbJob ℕ) :=
  (Core.machine (Env.plain 4 fun _ => 1)).feed InCall 0 entered [.act .main]

/-- Then the blocks come, and another coin. -/
def later : NodeHost ℕ (SpbJob ℕ) :=
  (Core.machine (Env.plain 4 fun _ => 1)).feed Machine.anyInput 0
    ((Core.machine (Env.plain 4 fun _ => 1)).start 0)
    (early ++ [.act .main, .act .main] ++ (Mislabelled.inputs 0).drop 1)

end Retried

/-- The second coin is processed: the height-2 block is handed over. -/
theorem coin_once_and_atomic_retried :
    Core.Fails (Env.plain 4 fun _ => 1) 0 1 0 Retried.entered (Host.home Retried.asked) ∧
      Core.Undone (Env.plain 4 fun _ => 1) 0 Retried.entered (Host.home Retried.asked) ∧
      ((1, 0, HEIGHT_2), Mislabelled.second 0) ∈ Retried.later.outs.filterMap handedBlock ∧
      Retried.later.outs.countP (isHandedOf 0) ≤ 1 := by
  have hentered : (Core.machine (Env.plain 4 fun _ => 1)).Local Machine.anyInput 0
      Retried.entered := Machine.Local.start.steps (Machine.feed_sound _ _ _)
  have hfails : Core.Fails (Env.plain 4 fun _ => 1) 0 1 0 Retried.entered
      (Host.home Retried.asked) :=
    ⟨rfl, Retried.asked, HEIGHT_2, [], Machine.feed_sound _ _ _, rfl, by decide +kernel, rfl⟩
  have hlater : (Core.machine (Env.plain 4 fun _ => 1)).Local Machine.anyInput 0 Retried.later :=
    Machine.Local.start.steps (Machine.feed_sound _ _ _)
  exact ⟨hfails, ((coin_once_and_atomic hentered).2 1 0 _ hfails).1, by decide +kernel,
    ((coin_once_and_atomic hlater).1 0).1⟩

end S2Pac
