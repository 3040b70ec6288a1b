import S2Pac.Conduct
import S2Pac.DAGBigCore.Moves

/-!
# Messages that come again

A node that handles a message a second time counts it a second time: votes, speed votes, reports and weak
votes are plain counters, and a goroutine runs once more with a proposal or a final vote. What a node
drops is dropped again (`redelivery_harmless`): in a run in which repeated messages are of that kind, the
state and what is sent are those of a run without them.
-/

set_option linter.unusedSectionVars false

namespace S2Pac

open Lib

variable {D : Type} [DecidableEq D] {J : Type}

/-! ## Shares that were used -/

/-- The elector has a share of the author of `e` for the view. -/
def Elector.Used (el : Elector) (e : ElectMsg) : Prop := e.author ∈ (el.aggregator e.view).used

theorem Elector.used_collect {el : Elector} {e e' : ElectMsg} (h : el.Used e' ∨ e' = e)
    (leaders : ℤ → Option NodeID) : Elector.Used ⟨leaders, el.collect e⟩ e' := by
  unfold Elector.Used Elector.collect
  dsimp only
  by_cases hv : e'.view = e.view
  · rw [hv, Function.update_self]
    rcases h with h | rfl
    · exact List.mem_cons_of_mem _ (hv ▸ h)
    · exact List.mem_cons_self
  · rw [Function.update_of_ne hv]
    exact h.resolve_right fun he => hv (he ▸ rfl)

theorem Elector.used_of_add {E : Env D} {el el' : Elector} {e : ElectMsg}
    {res : Except ElectErr NodeID} (h : el.add E e = some (el', res)) {e' : ElectMsg}
    (he : el.Used e' ∨ e' = e) : el'.Used e' := by
  cases adds_of_add h with
  | used hused =>
    rcases he with he | rfl
    · exact he
    · exact hused
  | failed _ => exact Elector.used_collect he _
  | kept _ => exact Elector.used_collect he _
  | elected _ _ _ _ => exact Elector.used_collect he _

/-- The machines that collect the shares of a view until they are `late` for it. -/
structure Collects (late : Node D J → ℤ → Prop)
    (M : Machine NodeID (Node D J) (Msg D) Act (Event D)) : Prop where
  elect : ∀ i c e r, M.recv i c (.elect e) = some r →
    late c e.view ∨ r.1.crashed = true ∨ r.1.eletor.Used e
  recv : ∀ i c m r, M.recv i c m = some r → c.crashed = false ∧
    (∀ e, c.eletor.Used e → r.1.eletor.Used e) ∧ ∀ view, late c view → late r.1 view
  act : ∀ i c a r, M.act i c a = some r → c.crashed = false ∧
    (∀ e, c.eletor.Used e → r.1.eletor.Used e) ∧ ∀ view, late c view → late r.1 view

/-- **A share that was handled has been used**, or came too late. -/
theorem Collects.used {late : Node D J → ℤ → Prop}
    {M : Machine NodeID (Node D J) (Msg D) Act (Event D)} (hM : Collects late M)
    {G : Machine.Guard NodeID (Node D J) (Msg D) Act (Event D)} {self : NodeID} {h : NodeHost D J}
    (hl : M.Local G self h) {e : ElectMsg} (he : Msg.elect e ∈ h.received) :
    late h.st e.view ∨ h.st.crashed = true ∨ h.st.eletor.Used e := by
  induction hl with
  | start => exact absurd he List.not_mem_nil
  | @recv h m s o _ _ hs ih =>
    obtain ⟨hc, hused, hlate⟩ := hM.recv _ _ _ _ hs
    rcases List.mem_append.1 he with he | he
    · rcases ih he with h | h | h
      · exact Or.inl (hlate _ h)
      · exact absurd (h.symm.trans hc) (by decide)
      · exact Or.inr (Or.inr (hused _ h))
    · obtain rfl := List.mem_singleton.1 he
      exact (hM.elect _ _ _ _ hs).imp_left (hlate _)
  | @act h a s o _ _ hs ih =>
    obtain ⟨hc, hused, hlate⟩ := hM.act _ _ _ _ hs
    rcases ih he with h | h | h
    · exact Or.inl (hlate _ h)
    · exact absurd (h.symm.trans hc) (by decide)
    · exact Or.inr (Or.inr (hused _ h))

/-- **Messages that come again are harmless where they are dropped**: handling one leaves the node as it
is and sends nothing, and a run in which only such messages come again ends in the state of a run without
them, with the same put out. -/
structure Harmless (M : Machine NodeID (Node D J) (Msg D) Act (Event D))
    (drops : Node D J → Msg D → Prop) : Prop where
  again : ∀ self h m r, M.Local Machine.anyInput self h → m ∈ h.received → drops h.st m →
    M.recv self h.st m = some r → r = (h.st, [])
  run : ∀ self h, M.Local (Machine.repeatsIf drops) self h → ∃ h', M.Local Machine.fresh self h' ∧
    h'.st = h.st ∧ h'.outs = h.outs ∧ ∀ m, m ∈ h'.received ↔ m ∈ h.received

theorem Collects.harmless {late : Node D J → ℤ → Prop} {drops : Node D J → Msg D → Prop}
    {M : Machine NodeID (Node D J) (Msg D) Act (Event D)} (hM : Collects late M)
    (hdrop : ∀ i c m r, drops c m → (∀ e, m = .elect e → late c e.view ∨ c.eletor.Used e) →
      M.recv i c m = some r → r = (c, [])) : Harmless M drops := by
  have again : ∀ self h m r, M.Local Machine.anyInput self h → m ∈ h.received → drops h.st m →
      M.recv self h.st m = some r → r = (h.st, []) := by
    intro self h m r hl hm hd hr
    refine hdrop _ _ _ _ hd (fun e he => ?_) hr
    rcases hM.used hl (he ▸ hm) with h | h | h
    · exact Or.inl h
    · exact absurd (h.symm.trans (hM.recv _ _ _ _ hr).1) (by decide)
    · exact Or.inr h
  exact ⟨again, fun self h hl => hl.without_repeats fun h m r hl hm hd hr =>
    again self h m r (hl.weaken fun _ _ _ _ => trivial) hm hd hr⟩

theorem Node.not_crashed_of_ready {c : Node D J} (h : c.ready = true) : c.crashed = false := by
  simp only [Node.ready, Bool.and_eq_true, Bool.not_eq_true'] at h
  exact h.1.2

section Steps

variable {E : Env D} {self : NodeID} {V : Variant} {P : Goroutines D J} {c c' : Node D J}
  {os : List (NodeOut D)}

theorem Handling.used {m : Msg D} (h : Handling E self V P c m c' os) {e : ElectMsg}
    (he : c.eletor.Used e) : c'.eletor.Used e := by
  cases h with
  | shares hadd _ | tossed _ hadd _ _ | elected hadd _ _ =>
    exact Elector.used_of_add hadd (Or.inl he)
  | _ => exact he

theorem Acting.eletor {a : Act} (h : Acting E self V P c a c' os) : c'.eletor = c.eletor := by
  cases h with
  | task _ _ _ hwork => exact hwork.eletor
  | coin hc => cases hc <;> rfl
  | _ => rfl

/-- Only the lean protocol filters the shares by their view. -/
theorem Branches.collects {M : Machine NodeID (Node D J) (Msg D) Act (Event D)} (hM : Branches E V P M)
    {late : Node D J → ℤ → Prop}
    (helect : ∀ i c e r, M.recv i c (.elect e) = some r →
      late c e.view ∨ r.1.crashed = true ∨ r.1.eletor.Used e)
    (hrecv : ∀ i c m r, M.recv i c m = some r → ∀ view, late c view → late r.1 view)
    (hact : ∀ i c a r, M.act i c a = some r → ∀ view, late c view → late r.1 view) :
    Collects late M where
  elect := helect
  recv i c m r h :=
    ⟨Node.not_crashed_of_ready (hM.recv _ _ _ _ h).1, fun _ he => (hM.recv _ _ _ _ h).2.used he,
      hrecv _ _ _ _ h⟩
  act i c a r h :=
    ⟨hM.live _ _ _ _ h, fun _ he => by rwa [(hM.act _ _ _ _ h).eletor], hact _ _ _ _ h⟩

end Steps

theorem Turn.view_le {E : Env D} {self : NodeID} {flagged : Bool} {c c' : Node D J}
    {x : Input (Msg D) Act} {os : List (NodeOut D)} (ht : Turn E self flagged c x c' os) :
    c.view ≤ c'.view := by
  cases ht with
  | aside hk _ _ => exact hk.view.ge
  | store hk _ => exact hk.view.ge
  | advance _ _ _ _ _ hlt => exact hlt.le
  | process hs => cases hs <;> exact le_rfl
  | _ => exact le_rfl

theorem Node.verified_false {c : Node D J} {ok : Option Bool} {r : Moved D J} (h : ok = some false) :
    c.verified ok r = (c, []) := by
  rw [h]
  rfl

theorem Node.verified_true {c : Node D J} {ok : Option Bool} {r : Moved D J} (h : ok = some true) :
    c.verified ok r = r := by
  rw [h]
  rfl

/-! ## The lean protocol -/

namespace Core

variable {E : Env D} {self : NodeID} {c : Node D (SpbJob D)}

/-- What a node that has seen the message before drops: what does not verify, what belongs to an earlier
view (with its block in the store, if it is a proposal), shares, and coins of a view whose report is
out. -/
def Drops (E : Env D) (c : Node D (SpbJob D)) (m : Msg D) : Prop :=
  m.verify E = some false ∨
    match m with
    | .propose p => Msg.passes E true m = true ∧ messageFilter c p.view ∧
        getBlock c.store (p.b.hash E) = some p.b
    | .vote v => messageFilter c v.view
    | .finVote fv => messageFilter c fv.view
    | .speedVote sv => messageFilter c sv.view
    | .elect _ => True
    | .randomCoin r => r.verify E = some true ∧ c.coinViewFlags r.view = true
    | .report r => messageFilter c r.view

instance (c : Node D (SpbJob D)) (m : Msg D) : Decidable (Drops E c m) := by
  unfold Drops
  cases m <;> infer_instance

theorem collects : Collects (fun c view => messageFilter c view) (machine E) := by
  refine (branches E).collects ?_ (fun i c m r h v hv => lt_of_lt_of_le hv (turns.recv i c m r h).view_le)
    fun i c a r h v hv => lt_of_lt_of_le hv (turns.act i c a r h).view_le
  intro i c e r h
  obtain ⟨-, rfl⟩ := handle_of_recv h
  simp only [handle, handleElectMsg]
  split
  · next hf => exact Or.inl hf
  · rw [if_neg (by simp [ElectMsg.verify])]
    split
    · exact Or.inr (Or.inl rfl)
    · next hadd => exact Or.inr (Or.inr (Elector.used_of_add hadd (Or.inr rfl)))
    · next hadd =>
      have hused := Elector.used_of_add hadd (Or.inr rfl)
      split
      · exact Or.inr (Or.inr hused)
      · unfold processCoin
        split <;> exact Or.inr (Or.inr hused)

theorem handle_drop {m : Msg D} (hm : Drops E c m)
    (he : ∀ e, m = .elect e → messageFilter c e.view ∨ c.eletor.Used e) :
    handle E self c m = (c, []) := by
  cases m with
  | propose p =>
    rcases hm with hv | ⟨hp, hf, hst⟩
    · exact Node.verified_false hv
    · have hv : p.verify E = some true := Msg.passes_verify (m := .propose p) hp
      have hd : p.verifyDocG E = some true := by simpa [Msg.passes, Msg.verify, hv] using hp
      have hsame : storeBlock E c.store p.b = c.store := by
        unfold storeBlock
        rw [← hst]
        exact Function.update_eq_self _ _
      simp only [handle, handleProposeMsg, Node.verified_true hv, Node.verified_true hd, hsame]
      exact if_pos hf
  | vote v =>
    simp only [handle, handleVoteMsg]
    split
    · rfl
    · next hf => exact Node.verified_false (hm.resolve_right hf)
  | finVote fv =>
    simp only [handle, handleFinVoteMsg]
    split
    · rfl
    · next hf => exact Node.verified_false (hm.resolve_right hf)
  | speedVote sv =>
    simp only [handle, handleSpeedVoteMsg]
    split
    · rfl
    · next hf => exact Node.verified_false (hm.resolve_right hf)
  | elect e =>
    simp only [handle, handleElectMsg]
    split
    · rfl
    · next hf =>
      rw [if_neg (by simp [ElectMsg.verify]), Elector.add_used ((he e rfl).resolve_left hf)]
  | randomCoin r =>
    rcases hm with hv | ⟨hv, hflag⟩
    · exact Node.verified_false hv
    · simp only [handle, handleCoinMsg, Node.verified_true hv, processCoin, hflag, if_true]
  | report r =>
    simp only [handle, handleReportMsg]
    split
    · rfl
    · next hf => exact Node.verified_false (hm.resolve_right hf)

theorem recv_drop {i : NodeID} {m : Msg D} {r : Moved D (SpbJob D)} (hm : Drops E c m)
    (he : ∀ e, m = .elect e → messageFilter c e.view ∨ c.eletor.Used e)
    (hr : (machine E).recv i c m = some r) : r = (c, []) := by
  exact (handle_of_recv hr).2.symm.trans (handle_drop hm he)

end Core

/-! ## The big protocols -/

/-- What a node of the big protocols that has seen the message before drops: what does not verify, the
messages without a handler, and shares. -/
def BigSPB.Drops (E : Env D) (m : Msg D) : Prop :=
  m.verify E = some false ∨
    match m with
    | .finVote _ => True
    | .elect _ => True
    | .randomCoin _ => True
    | _ => False

instance (E : Env D) (m : Msg D) : Decidable (BigSPB.Drops E m) := by
  unfold BigSPB.Drops
  cases m <;> infer_instance

namespace BigCore

variable {E : Env D} {self : NodeID} {c : BigNode D}

theorem handleElectMsg_used (c : BigNode D) (e : ElectMsg) :
    (handleElectMsg E c e).1.crashed = true ∨ (handleElectMsg E c e).1.eletor.Used e := by
  simp only [handleElectMsg]
  rw [if_neg (by simp [ElectMsg.verify])]
  split
  · exact Or.inl rfl
  · next hadd => exact Or.inr (Elector.used_of_add hadd (Or.inr rfl))
  · next hadd =>
    have hused := Elector.used_of_add hadd (Or.inr rfl)
    split <;> exact Or.inr hused

theorem handleElectMsg_again {e : ElectMsg} (h : c.eletor.Used e) : handleElectMsg E c e = (c, []) := by
  simp only [handleElectMsg]
  rw [if_neg (by simp [ElectMsg.verify]), Elector.add_used h]

theorem collects : Collects (fun _ _ => False) (machine E) := by
  refine (branches E).collects (fun i c e r h => ?_) (fun _ _ _ _ _ _ => id) fun _ _ _ _ _ _ => id
  obtain ⟨-, rfl⟩ := handle_of_recv h
  exact Or.inr (handleElectMsg_used c e)

theorem handle_drop {m : Msg D} (hm : BigSPB.Drops E m)
    (he : ∀ e, m = .elect e → c.eletor.Used e) : handle E self c m = (c, []) := by
  cases m with
  | propose p => exact Node.verified_false (hm.resolve_right id)
  | vote v => exact Node.verified_false (hm.resolve_right id)
  | finVote fv => rfl
  | speedVote sv => exact Node.verified_false (hm.resolve_right id)
  | elect e => exact handleElectMsg_again (he e rfl)
  | randomCoin r => rfl
  | report r => exact Node.verified_false (hm.resolve_right id)

theorem recv_drop {i : NodeID} {m : Msg D} {r : BigMoved D} (hm : BigSPB.Drops E m)
    (he : ∀ e, m = .elect e → c.eletor.Used e) (hr : (machine E).recv i c m = some r) :
    r = (c, []) := by
  exact (handle_of_recv hr).2.symm.trans (handle_drop hm he)

end BigCore

namespace DAGBigCore

variable {E : Env D} {self : NodeID} {c : BigNode D}

theorem collects : Collects (fun _ _ => False) (machine E) := by
  refine (branches E).collects (fun i c e r h => ?_) (fun _ _ _ _ _ _ => id) fun _ _ _ _ _ _ => id
  obtain ⟨-, rfl⟩ := handle_of_recv h
  exact Or.inr (BigCore.handleElectMsg_used c e)

theorem handle_drop {m : Msg D} (hm : BigSPB.Drops E m)
    (he : ∀ e, m = .elect e → c.eletor.Used e) : handle E self c m = (c, []) := by
  cases m with
  | propose p => exact Node.verified_false (hm.resolve_right id)
  | vote v => exact Node.verified_false (hm.resolve_right id)
  | finVote fv => rfl
  | speedVote sv => exact Node.verified_false (hm.resolve_right id)
  | elect e => exact BigCore.handleElectMsg_again (he e rfl)
  | randomCoin r => rfl
  | report r => exact Node.verified_false (hm.resolve_right id)

theorem recv_drop {i : NodeID} {m : Msg D} {r : BigMoved D} (hm : BigSPB.Drops E m)
    (he : ∀ e, m = .elect e → c.eletor.Used e) (hr : (machine E).recv i c m = some r) :
    r = (c, []) := by
  exact (handle_of_recv hr).2.symm.trans (handle_drop hm he)

end DAGBigCore

/-- **Re-delivery is harmless where the node drops the message**, in the three protocols. -/
theorem redelivery_harmless (E : Env D) :
    Harmless (Core.machine E) (Core.Drops E) ∧
      Harmless (BigCore.machine E) (fun _ => BigSPB.Drops E) ∧
      Harmless (DAGBigCore.machine E) (fun _ => BigSPB.Drops E) :=
  ⟨Core.collects.harmless fun _ _ _ _ hm he hr => Core.recv_drop hm he hr,
    BigCore.collects.harmless fun _ _ _ _ hm he hr =>
      BigCore.recv_drop hm (fun e h => (he e h).resolve_left id) hr,
    DAGBigCore.collects.harmless fun _ _ _ _ hm he hr =>
      DAGBigCore.recv_drop hm (fun e h => (he e h).resolve_left id) hr⟩

namespace Repeated

/-- A height-1 vote of node 1 for node 0, -/
def vote : Msg ℕ := .vote ⟨1, 0, 0, 0, HEIGHT_1, []⟩

/-- and a report of node 1 at level 1. -/
def report : Msg ℕ := .report ⟨1, 0, LEVEL_1, none, []⟩

/-- A share of node 1. -/
def share : Msg ℕ := .elect ⟨1, 0, []⟩

/-- Node 0 is handed a message `times` times, with the goroutines that it starts. -/
def run (m : Msg ℕ) (times : ℕ) : NodeHost ℕ (SpbJob ℕ) :=
  (Core.machine (Env.plain 4 fun _ => 0)).feed Machine.anyInput 0
    ((Core.machine (Env.plain 4 fun _ => 0)).start 0)
    (.act .boot :: (List.replicate times [.recv m, .act (.task 0), .act (.task 0)]).flatten)

/-- The heights of the proposals that were sent. -/
def heights (h : NodeHost ℕ (SpbJob ℕ)) : List ℕ :=
  h.outs.filterMap fun o =>
    match o.msg with
    | some (.propose p) => some p.height
    | _ => none

end Repeated

namespace Repeated

/-- Node 0 of the lean protocol leaves view 0. A share comes again at once, and the vote and a report of the
view when the node has left it. -/
def leaving : NodeHost ℕ (SpbJob ℕ) :=
  (Core.machine (Env.plain 4 fun _ => 0)).feed (Machine.repeatsIf (Core.Drops (Env.plain 4 fun _ => 0))) 0
    ((Core.machine (Env.plain 4 fun _ => 0)).start 0)
    [.act .boot, .recv share, .recv share, .recv vote, .act (.task 0), .recv report,
      .recv (.report ⟨2, 0, LEVEL_1, none, []⟩), .recv (.report ⟨3, 0, LEVEL_1, none, []⟩), .recv vote,
      .recv report, .recv share]

/-- Node 0 of the big protocol or the DAG variant, to which the shares of two nodes come again. -/
def sharing (M : NodeMachine ℕ (BigJob ℕ)) : NodeHost ℕ (BigJob ℕ) :=
  M.feed (Machine.repeatsIf fun _ => BigSPB.Drops (Env.plain 4 fun _ => 0)) 0 (M.start 0)
    [.act .boot, .recv share, .recv (.elect ⟨2, 0, []⟩), .recv share, .recv (.elect ⟨2, 0, []⟩), .recv share]

/-- The node is in a state of a run in which no message comes again. -/
def AsFresh {J : Type} (M : NodeMachine ℕ J) (h : NodeHost ℕ J) : Prop :=
  ∃ h', M.Local Machine.fresh 0 h' ∧ h'.st = h.st ∧ h'.outs = h.outs

end Repeated

open Repeated in
theorem redelivery_harmless_again :
    leaving.received.length = 9 ∧ leaving.st.view = 1 ∧
      AsFresh (Core.machine (Env.plain 4 fun _ => 0)) leaving ∧
      (Core.machine (Env.plain 4 fun _ => 0)).recv 0 leaving.st report = some (leaving.st, []) ∧
      (sharing (BigCore.machine (Env.plain 4 fun _ => 0))).received.length = 5 ∧
      AsFresh (BigCore.machine (Env.plain 4 fun _ => 0))
        (sharing (BigCore.machine (Env.plain 4 fun _ => 0))) ∧
      (sharing (DAGBigCore.machine (Env.plain 4 fun _ => 0))).received.length = 5 ∧
      AsFresh (DAGBigCore.machine (Env.plain 4 fun _ => 0))
        (sharing (DAGBigCore.machine (Env.plain 4 fun _ => 0))) := by
  obtain ⟨hcore, hbig, hdag⟩ := redelivery_harmless (Env.plain 4 fun _ => 0)
  have hl : (Core.machine (Env.plain 4 fun _ => 0)).Local
      (Machine.repeatsIf (Core.Drops (Env.plain 4 fun _ => 0))) 0 leaving :=
    Machine.Local.start.steps (Machine.feed_sound _ _ _)
  obtain ⟨r, hr⟩ := Option.isSome_iff_exists.1
    (show ((Core.machine (Env.plain 4 fun _ => 0)).recv 0 leaving.st report).isSome by decide +kernel)
  have hagain := hcore.again 0 _ _ r (hl.weaken fun _ _ _ _ => trivial) (by decide +kernel)
    (by decide +kernel) hr
  obtain ⟨h₁, hl₁, hst₁, hout₁, -⟩ := hcore.run 0 _ hl
  obtain ⟨h₂, hl₂, hst₂, hout₂, -⟩ := hbig.run 0 (sharing (BigCore.machine (Env.plain 4 fun _ => 0)))
    (Machine.Local.start.steps (Machine.feed_sound _ _ _))
  obtain ⟨h₃, hl₃, hst₃, hout₃, -⟩ := hdag.run 0 (sharing (DAGBigCore.machine (Env.plain 4 fun _ => 0)))
    (Machine.Local.start.steps (Machine.feed_sound _ _ _))
  exact ⟨by decide +kernel, by decide +kernel, ⟨h₁, hl₁, hst₁, hout₁⟩, hagain ▸ hr, by decide +kernel,
    ⟨h₂, hl₂, hst₂, hout₂⟩, by decide +kernel, h₃, hl₃, hst₃, hout₃⟩

/-- **One node's vote makes a quorum, and one node's report ends a view**, when they come three times. -/
theorem redelivery_counts :
    (∀ m times, (Core.machine (Env.plain 4 fun _ => 0)).Local Machine.anyInput 0
      (Repeated.run m times)) ∧
    (Repeated.run Repeated.vote 3).received = List.replicate 3 Repeated.vote ∧
    Repeated.heights (Repeated.run Repeated.vote 1) = [HEIGHT_1] ∧
    Repeated.heights (Repeated.run Repeated.vote 3) = [HEIGHT_1, HEIGHT_2] ∧
    (Repeated.run Repeated.report 3).received = List.replicate 3 Repeated.report ∧
    (Repeated.run Repeated.report 1).st.view = 0 ∧ (Repeated.run Repeated.report 3).st.view = 1 :=
  ⟨fun _ _ => Machine.Local.start.steps (Machine.feed_sound _ _ _), by decide +kernel,
    by decide +kernel, by decide +kernel, by decide +kernel, by decide +kernel, by decide +kernel⟩

end S2Pac
