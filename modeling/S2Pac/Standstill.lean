import S2Pac.BigCore.Progress
import S2Pac.DAGBigCore.Progress
import S2Pac.Deployment

/-!
# Where a deployment stands still

`BigCore.stops_only_starved` and `DAGBigCore.stops_only_missed` say where the protocols stop when every
message comes through. Here the same is said of the nodes with the network between them, whose channels hold
a thousand messages each: a deployment in which no connection has failed can go on, unless a goroutine waits
at a full channel or the protocol has stopped.

When no goroutine can go on and none waits at a full channel, everything is empty, from the calls of the
nodes over the transmitors, the connections and the receivers to the channel of every node that is ready for
a message (`settled_of_ready`). So there is nothing in flight in the world that the deployment refines
(`not_inFlight`), and no node can move there.

That a write waits for room on a connection is not modelled. There is something to read at the other end
then, and its reader goes on or waits at `Receiver.msg`. Nor does a call of `GetBatch` wait here, which it
can only when two calls of one node overlap.
-/

set_option linter.unusedSectionVars false

namespace S2Pac

open Lib

variable {D : Type} [DecidableEq D] {J : Type}

namespace Deployment

variable {E : Env D} {M : NodeMachine D J} {S S' : Deployment D J}

/-- No connection has failed. -/
structure Whole (S : Deployment D J) : Prop where
  dialled : ∀ i, ∀ x ∈ (S.out i).sender.served, x.2.2 = true
  written : ∀ i a ch, (S.out i).sender.conns a ≠ some ⟨ch, .returned⟩
  read : ∀ i j, (S.link i j).reader ≠ .returned

/-- A goroutine of node `i` waits at a full channel. -/
inductive Waits (E : Env D) (S : Deployment D J) (i : NodeID) : Prop
  /-- `RecvChannel() <- msg`. -/
  | own {m : Msg D} : .own m ∈ S.sending i ++ S.waiting i → inboxCap ≤ (S.inc i).recvCh.length →
      Waits E S i
  /-- `tr.msgCh <- msg` of `Send`. -/
  | send {receiver : NodeID} {m : Msg D} : .send receiver m ∈ S.sending i ++ S.waiting i →
      transmitCap ≤ (S.out i).msgCh.length → Waits E S i
  /-- `tr.sender.Send(msg)`. -/
  | relay {nm : NetMessage NodeID (Msg D)} : (S.out i).relay = some nm →
      sendCap ≤ (S.out i).sender.msgCh.length → Waits E S i
  /-- `recv.msg <- msg` of `serveConn`. -/
  | read {j : NodeID} {w : Wire D} : (S.link j i).reader = .handing w →
      receiverCap ≤ (S.inc i).msg.length → Waits E S i
  /-- `tr.recvCh <- msg`. A silent node takes nothing off `recvCh`, which holds up nobody else until its
  `Receiver.msg` is full too. -/
  | forward {x : NodeID × Wire D} : i ∈ E.live → (S.inc i).relay = some x →
      inboxCap ≤ (S.inc i).recvCh.length → Waits E S i

open Classical in
/-- The machine without those steps of its own that do not count. -/
noncomputable def only (M : NodeMachine D J) (counts : Node D J → Act → Prop) : NodeMachine D J :=
  { M with act := fun i c a => if counts c a then M.act i c a else none }

/-- Some goroutine can go on, and no connection fails by that. -/
def Moves (E : Env D) (M : NodeMachine D J) (counts : Node D J → Act → Prop) (S : Deployment D J) :
    Prop :=
  ∃ S', Step E (only M counts) S S' ∧ S'.Whole

theorem Whole.start : (start M).Whole :=
  ⟨fun _ => by simp [Deployment.start, Outgoing.new, Sender.new],
    fun _ => by simp [Deployment.start, Outgoing.new, Sender.new],
    fun _ _ => by simp [Deployment.start, Link.new]⟩

theorem Whole.congr (h : S.Whole) (hout : S'.out = S.out) (hlink : S'.link = S.link) : S'.Whole := by
  refine ⟨fun i => ?_, fun i => ?_, fun i j => ?_⟩
  · rw [hout]
    exact h.dialled i
  · rw [hout]
    exact h.written i
  · rw [hlink]
    exact h.read i j

theorem Whole.update_out (h : S.Whole) {i : NodeID} {o : Outgoing D}
    (hout : S'.out = Function.update S.out i o)
    (hserved : ∀ x ∈ o.sender.served, x.2.2 = true)
    (hconns : ∀ a ch, o.sender.conns a ≠ some ⟨ch, .returned⟩)
    (hread : ∀ i j, (S'.link i j).reader = (S.link i j).reader) : S'.Whole := by
  refine ⟨?_, ?_, fun i j => ?_⟩
  · rw [hout]
    exact (Function.forall_update_iff S.out fun _ o => ∀ x ∈ o.sender.served, x.2.2 = true).2
      ⟨hserved, fun i' _ => h.dialled i'⟩
  · rw [hout]
    exact (Function.forall_update_iff S.out fun _ o => ∀ a ch, o.sender.conns a ≠ some ⟨ch, .returned⟩).2
      ⟨hconns, fun i' _ => h.written i'⟩
  · rw [hread]
    exact h.read i j

theorem Whole.update_same (h : S.Whole) {i : NodeID} {o : Outgoing D}
    (hout : S'.out = Function.update S.out i o) (hlink : S'.link = S.link)
    (hserved : o.sender.served = (S.out i).sender.served)
    (hconns : o.sender.conns = (S.out i).sender.conns) : S'.Whole :=
  h.update_out hout (hserved ▸ h.dialled i) (hconns ▸ h.written i) fun _ _ => by rw [hlink]

theorem Whole.update_link (h : S.Whole) {i j : NodeID} {l : Link D} (hl : l.reader ≠ .returned)
    (hout : S'.out = S.out)
    (hlink : S'.link = Function.update S.link i (Function.update (S.link i) j l)) : S'.Whole := by
  refine ⟨fun i' => ?_, fun i' => ?_, fun i' j' => ?_⟩
  · rw [hout]
    exact h.dialled i'
  · rw [hout]
    exact h.written i'
  · rw [hlink]
    by_cases hij : i' = i ∧ j' = j
    · obtain ⟨rfl, rfl⟩ := hij
      rwa [update_link_self]
    · rw [update_link_ne _ _ hij]
      exact h.read i' j'

theorem not_returned_update {conns : NodeID → Option (Conn (Msg D))}
    (h : ∀ a ch, conns a ≠ some ⟨ch, .returned⟩) (a : NodeID) {c : Conn (Msg D)}
    (hc : ∀ ch, c ≠ ⟨ch, .returned⟩) (a' : NodeID) (ch : List (Msg D)) :
    Function.update conns a (some c) a' ≠ some ⟨ch, .returned⟩ :=
  (Function.forall_update_iff conns fun _ c => c ≠ some ⟨ch, .returned⟩).2
    ⟨fun he => hc ch (Option.some.inj he), fun a' _ => h a' ch⟩ a'

/-! ## Where the senders dial -/

theorem Calls.mem {i : NodeID} {c : SendCall D} (h : Calls i c S S') : c ∈ S.sending i ++ S.waiting i := by
  cases h with
  | run hs => simp [hs]
  | other hk => exact List.mem_append_right _ (List.mem_of_getElem? hk)

theorem Calls.subset {i : NodeID} {c : SendCall D} (h : Calls i c S S') (i' : NodeID) :
    S'.sending i' ++ S'.waiting i' ⊆ S.sending i' ++ S.waiting i' := by
  by_cases hi : i' = i
  · subst hi
    cases h with
    | run hs => simp [hs]
    | other _ =>
      simp only [Function.update_self]
      exact List.append_subset.2 ⟨List.subset_append_left _ _,
        List.Subset.trans List.eraseIdx_subset (List.subset_append_right _ _)⟩
  · cases h <;> simp [Function.update_of_ne hi]

/-- **Everything goes to members**: what is still to be sent is for everybody, and what was sent is
addressed to the committee. -/
structure Aimed (E : Env D) (S : Deployment D J) : Prop where
  calls : ∀ i receiver m, .send receiver m ∈ S.sending i ++ S.waiting i → receiver = NONE
  posted : ∀ i, ∀ nm ∈ (S.out i).posted, nm.address ⊆ E.members

theorem callsOf_none {os : List (NodeOut D)} (hos : Public os) {me receiver : NodeID} {m : Msg D}
    (h : .send receiver m ∈ os.flatMap (callsOf me)) : receiver = NONE := by
  obtain ⟨o, ho, hc⟩ := List.mem_flatMap.1 h
  cases o with
  | «to» i m' => exact absurd ho (hos i m')
  | _ => simp_all [callsOf]

theorem Aimed.step (hS : S.Aimed E) {i : NodeID} {x : Input (Msg D) Act}
    {r : NodeHost D J × List (NodeOut D)} (hr : M.input i (S.host i) x = some r)
    (hos : Public (S'.host i).outs) (hhost : S'.host = Function.update S.host i r.1)
    (hout : S'.out = S.out)
    (hother : ∀ i', i' ≠ i → S'.sending i' ++ S'.waiting i' = S.sending i' ++ S.waiting i')
    (hcalls : S'.sending i ++ S'.waiting i ⊆ S.sending i ++ S.waiting i ++ r.2.flatMap (callsOf i)) :
    S'.Aimed E := by
  refine ⟨fun i' receiver m hc => ?_, hout ▸ hS.posted⟩
  by_cases h : i' = i
  · subst h
    rcases List.mem_append.1 (hcalls hc) with hc | hc
    · exact hS.calls _ _ _ hc
    · refine callsOf_none (fun k m' hk => hos k m' ?_) hc
      rw [hhost, Function.update_self, Machine.input_outs hr]
      exact List.mem_append_right _ hk
  · rw [hother i' h] at hc
    exact hS.calls _ _ _ hc

theorem Aimed.of_same (hS : S.Aimed E) (hposted : ∀ i, (S'.out i).posted = (S.out i).posted)
    (hcalls : ∀ i, S'.sending i ++ S'.waiting i ⊆ S.sending i ++ S.waiting i) : S'.Aimed E :=
  ⟨fun i _ _ hc => hS.calls i _ _ (hcalls i hc), fun i => hposted i ▸ hS.posted i⟩

theorem netMessage_subset (E : Env D) (me : NodeID) (m : Msg D) :
    (netMessage E me NONE m).address ⊆ E.members := by
  simp [netMessage]

theorem Step.aimed (h : Step E M S S') (hos : ∀ i, Public (S'.host i).outs) (hS : S.Aimed E) :
    S'.Aimed E := by
  cases h with
  | @recv i _ _ _ _ hs _ hr =>
    refine hS.step hr (hos i) rfl rfl (fun i' h => ?_) ?_
    · simp only [Function.update_of_ne h]
    · simp [hs]
  | @run i _ _ _ _ hs hr =>
    refine hS.step hr (hos i) rfl rfl (fun i' h => ?_) ?_
    · simp only [Function.update_of_ne h]
    · simp [hs]
  | @task i _ _ _ _ hr =>
    refine hS.step hr (hos i) rfl rfl (fun i' h => ?_) ?_
    · simp only [Function.update_of_ne h]
    · simp
  | own _ hc _ => exact hS.of_same (fun _ => by rw [hc.frame.2.1]) hc.subset
  | @send S₁ i receiver m address o _ hc haddr ho =>
    obtain rfl := hS.calls _ _ _ hc.mem
    refine ⟨fun i _ _ h => hS.calls i _ _ (hc.subset i h),
      (Function.forall_update_iff S.out fun _ o => ∀ nm ∈ o.posted, nm.address ⊆ E.members).2
        ⟨?_, fun i' _ => hS.posted i'⟩⟩
    cases ho with
    | post _ _ =>
      intro nm hnm
      rcases List.mem_append.1 hnm with hnm | hnm
      · exact hS.posted i nm hnm
      · rw [List.mem_singleton.1 hnm]
        exact List.Subset.trans haddr.subset (netMessage_subset E i m)
  | relay _ hmv ho =>
    refine hS.of_same (fun _ => posted_eq ho ?_) fun _ => List.Subset.refl _
    rintro nm rfl
    simp at hmv
  | sender _ _ _ ho => exact hS.of_same (fun _ => posted_eq ho (by simp)) fun _ => List.Subset.refl _
  | wrote _ _ ho _ => exact hS.of_same (fun _ => posted_eq ho (by simp)) fun _ => List.Subset.refl _
  | fail _ _ _ ho _ => exact hS.of_same (fun _ => posted_eq ho (by simp)) fun _ => List.Subset.refl _
  | _ => exact hS.of_same (fun _ => rfl) fun _ => List.Subset.refl _

/-- The address that a sender is at is one that a message was sent to. -/
theorem Aimed.listening (hS : S.Aimed E) (hinv : S.Inv E) (i : NodeID) : Listening E (S.out i).sender := by
  intro msg a rest hpc
  have hmem : (a, msg) ∈ Sender.addressed (S.out i).sender.sent := by
    rw [← (hinv.out i).books.order, Sender.pending, hpc]
    simp [Sender.todo]
  obtain ⟨nm, hnm, ha⟩ := List.mem_flatMap.1 hmem
  obtain ⟨a', ha', he⟩ := List.mem_map.1 ha
  cases he
  refine hS.posted i nm ?_ ha'
  rw [← (hinv.out i).order]
  simp [hnm]

/-- A deployment whose nodes send to everybody is the world that it refines with its messages on the way
to members. -/
theorem Reach.refines_aimed (hM : M.hosts = E.members)
    (hos : ∀ w, M.Reach Machine.anyInput w → ∀ i, Public (w.host i).outs) (hS : Reach E M S) :
    S.Aimed E ∧ ∃ w, M.Reach Machine.anyInput w ∧ w.host = S.host ∧ S.Accounts E := by
  have hrefines {S : Deployment D J} (hS : Reach E M S) :=
    hS.refines hM fun w hw i _ => (hos w hw i).addressed
  refine ⟨?_, hrefines hS⟩
  induction hS with
  | refl => exact ⟨by simp [start], by simp [start, Outgoing.new]⟩
  | tail hreach hstep ih =>
    obtain ⟨w, hw, hhost, -⟩ := hrefines (hreach.tail hstep)
    exact hstep.aimed (fun i => hhost ▸ hos w hw i) ih

/-! ## A deployment in which nothing moves -/

section Stuck

variable {counts : Node D J → Act → Prop} (hS : S.Inv E) (hup : ∀ i ∈ E.members, S.Up E i)
  (hlisten : ∀ i, Listening E (S.out i).sender) (hwhole : S.Whole)
  (hstuck : ¬ S.Moves E M counts) (hwait : ∀ i ∈ E.members, ¬ S.Waits E i)

include hup hwhole hstuck hwait

theorem not_calls {i : NodeID} (hi : i ∈ E.members) {c : SendCall D} {S₁ : Deployment D J}
    (hc : Calls i c S S₁) (hmem : c ∈ S.sending i ++ S.waiting i) : False := by
  obtain ⟨-, hout, hlink, -⟩ := hc.frame
  cases c with
  | own m =>
    by_cases hlen : (S.inc i).recvCh.length < inboxCap
    · exact hstuck ⟨_, Step.own (hup i hi) hc (.own m hlen), hwhole.congr hout hlink⟩
    · exact hwait i hi (.own hmem (not_lt.1 hlen))
  | send receiver m =>
    by_cases hlen : (S.out i).msgCh.length < transmitCap
    · exact hstuck ⟨_, Step.send (hup i hi) hc (List.Perm.refl _) (.post _ hlen),
        hwhole.update_same rfl hlink rfl rfl⟩
    · exact hwait i hi (.send hmem (not_lt.1 hlen))

theorem sending_eq_nil {i : NodeID} (hi : i ∈ E.members) : S.sending i = [] := by
  cases hs : S.sending i with
  | nil => rfl
  | cons c rest =>
    exact (not_calls hup hwhole hstuck hwait hi (Calls.run hs) (by simp [hs])).elim

theorem waiting_eq_nil {i : NodeID} (hi : i ∈ E.members) : S.waiting i = [] := by
  cases hs : S.waiting i with
  | nil => rfl
  | cons c rest =>
    have hc : (S.waiting i)[0]? = some c := by simp [hs]
    exact (not_calls hup hwhole hstuck hwait hi (Calls.other hc) (by simp [hs])).elim

/-! ### On the way out -/

theorem relay_eq_none {i : NodeID} (hi : i ∈ E.members) : (S.out i).relay = none := by
  cases hr : (S.out i).relay with
  | none => rfl
  | some nm =>
    by_cases hlen : (S.out i).sender.msgCh.length < sendCap
    · exact (hstuck ⟨_, Step.relay (hup i hi) (Or.inr rfl) (.pass hr (.send nm hlen)),
        hwhole.update_same rfl rfl rfl rfl⟩).elim
    · exact (hwait i hi (.relay hr (not_lt.1 hlen))).elim

theorem msgCh_eq_nil {i : NodeID} (hi : i ∈ E.members) : (S.out i).msgCh = [] := by
  cases hch : (S.out i).msgCh with
  | nil => rfl
  | cons nm rest =>
    exact (hstuck ⟨_, Step.relay (hup i hi) (Or.inl rfl)
      (.take (relay_eq_none hup hwhole hstuck hwait hi) hch), hwhole.update_same rfl rfl rfl rfl⟩).elim

theorem conn_eq {i a : NodeID} (hi : i ∈ E.members) {c : Conn (Msg D)}
    (hc : (S.out i).sender.conns a = some c) : c = ⟨[], .ranging⟩ := by
  obtain ⟨ch, writer⟩ := c
  cases writer with
  | ranging =>
    cases ch with
    | nil => rfl
    | cons m rest =>
      refine (hstuck ⟨_, Step.sender (hup i hi) (by simp) (by simp) (.sender (by simp) (.fetch hc)), ?_⟩).elim
      exact hwhole.update_out rfl (hwhole.dialled i) (not_returned_update (hwhole.written i) a (by simp))
        fun _ _ => rfl
  | writing m =>
    refine (hstuck ⟨_, Step.wrote (hup i hi) hc (.sender (by simp) (.wrote hc)) (.write _), ?_⟩).elim
    refine hwhole.update_out rfl (hwhole.dialled i) (not_returned_update (hwhole.written i) a (by simp))
      fun i' j' => ?_
    dsimp only
    by_cases hij : i' = i ∧ j' = a
    · obtain ⟨rfl, rfl⟩ := hij
      rw [update_link_self]
    · rw [update_link_ne _ _ hij]
  | returned => exact absurd hc (hwhole.written i a ch)

include hlisten in
theorem pc_eq_idle {i : NodeID} (hi : i ∈ E.members) : (S.out i).sender.pc = .idle := by
  cases hpc : (S.out i).sender.pc with
  | idle => rfl
  | sending msg address =>
    exfalso
    cases address with
    | nil =>
      exact hstuck ⟨_, Step.sender (hup i hi) (by simp) (by simp) (.sender (by simp) (.next hpc)),
        hwhole.update_same rfl rfl rfl rfl⟩
    | cons a rest =>
      have hserved : ∀ x ∈ (S.out i).sender.served ++ [(a, msg, true)], x.2.2 = true := by
        simpa [or_imp, forall_and] using fun a m ok hx => hwhole.dialled i (a, m, ok) hx
      cases hconn : (S.out i).sender.conns a with
      | none =>
        refine hstuck ⟨_, Step.sender (hup i hi) (by simp) (fun _ => hlisten i)
          (.sender (by simp) (.dial hpc hconn)), ?_⟩
        exact hwhole.update_out rfl hserved (not_returned_update (hwhole.written i) a (by simp))
          fun _ _ => rfl
      | some c =>
        obtain rfl := conn_eq hup hwhole hstuck hwait hi hconn
        refine hstuck ⟨_, Step.sender (hup i hi) (by simp) (by simp)
          (.sender (by simp) (.hand hpc hconn (by simp [connCap]))), ?_⟩
        exact hwhole.update_out rfl hserved (not_returned_update (hwhole.written i) a (by simp))
          fun _ _ => rfl

include hlisten in
theorem pending_eq_nil {i : NodeID} (hi : i ∈ E.members) : (S.out i).sender.pending = [] := by
  have hpc := pc_eq_idle hup hlisten hwhole hstuck hwait hi
  rw [Sender.pending, hpc, Sender.todo, List.nil_append]
  cases hch : (S.out i).sender.msgCh with
  | nil => rfl
  | cons nm rest =>
    exact (hstuck ⟨_, Step.sender (hup i hi) (by simp) (by simp) (.sender (by simp) (.take hpc hch)),
      hwhole.update_same rfl rfl rfl rfl⟩).elim

include hlisten in
theorem through {i : NodeID} (hi : i ∈ E.members) (a : NodeID) : (S.out i).Through a where
  msgCh := msgCh_eq_nil hup hwhole hstuck hwait hi
  relay := relay_eq_none hup hwhole hstuck hwait hi
  pending := pending_eq_nil hup hlisten hwhole hstuck hwait hi
  queue := by
    unfold Sender.queue
    cases hc : (S.out i).sender.conns a with
    | none => rfl
    | some c =>
      rw [conn_eq hup hwhole hstuck hwait hi hc]
      rfl
  dialled x hx _ := hwhole.dialled i x hx

/-! ### On the way in -/

theorem recvCh_eq_nil {j : NodeID} (hj : j ∈ E.members)
    (hready : ∀ m, ∃ r, M.recv j (S.host j).st m = some r) : (S.inc j).recvCh = [] := by
  cases hch : (S.inc j).recvCh with
  | nil => rfl
  | cons x rest =>
    obtain ⟨t, m⟩ := x
    obtain ⟨r, hr⟩ := hready m
    exact (hstuck ⟨_, Step.recv (hup j hj) (sending_eq_nil hup hwhole hstuck hwait hj) (.recv hch)
      (Option.map_eq_some_iff.2 ⟨r, hr, rfl⟩), hwhole.congr rfl rfl⟩).elim

include hS

theorem link_rest {i j : NodeID} (hi : i ∈ E.members) (hj : j ∈ E.members) :
    (S.link i j).reader = .typeId ∧ (S.link i j).stream = [] := by
  obtain ⟨rest, howes, hflow⟩ := hS.link i j
  obtain rfl : rest = [] := by
    cases hc : (S.out i).sender.conns j with
    | none => simpa [hc, Owes] using howes
    | some c =>
      obtain rfl := conn_eq hup hwhole hstuck hwait hi hc
      simpa [hc, Owes] using howes
  have hnot {v : Value D} {vs : List (Value D)} (hdec : (S.link i j).reader.Decoding)
      (hst : (S.link i j).stream = v :: vs) : False := by
    have hl := Link.Step.decode hdec hst
    exact hstuck ⟨_, Step.read (hup j hj) (Or.inl rfl) hl,
      hwhole.update_link (hflow.decode hl).2 rfl rfl⟩
  cases hr : (S.link i j).reader with
  | typeId =>
    cases hst : (S.link i j).stream with
    | nil => exact ⟨rfl, rfl⟩
    | cons v vs => exact (hnot (by rw [hr]; trivial) hst).elim
  | message n =>
    cases hst : (S.link i j).stream with
    | nil =>
      -- the message itself has been written with the number of its type
      have hplace := hflow.place (by simp [hr])
      rw [hr, hst] at hplace
      simp only [ConnReader.held, List.append_nil] at hplace
      obtain ⟨w, more, -, -, hvs⟩ := Codec.next_of_writeAll hplace
      cases hvs
    | cons v vs => exact (hnot (by rw [hr]; trivial) hst).elim
  | handing w =>
    by_cases hlen : (S.inc j).msg.length < receiverCap
    · exact (hstuck ⟨_, Step.arrive (hup j hj) (.hand hr) (.arrive i w hlen),
        hwhole.update_link (by simp) rfl rfl⟩).elim
    · exact (hwait j hj (.read hr (not_lt.1 hlen))).elim
  | returned => exact absurd hr (hwhole.read i j)
  | panicked => exact absurd hr hflow.sane

theorem inc_relay_eq_none {j : NodeID} (hlive : j ∈ E.live) : (S.inc j).relay = none := by
  have hj := (Env.mem_live.1 hlive).1
  cases hr : (S.inc j).relay with
  | none => rfl
  | some x =>
    obtain ⟨i, w⟩ := x
    exfalso
    cases hm : w.msg with
    | none => exact hS.not_panics (Or.inr ⟨i, j, w, hr, hm⟩)
    | some m =>
      by_cases hlen : (S.inc j).recvCh.length < inboxCap
      · exact hstuck ⟨_, Step.forward (hup j hj) (Or.inr rfl) (.pass hr hm hlen), hwhole.congr rfl rfl⟩
      · exact hwait j hj (.forward hlive hr (not_lt.1 hlen))

theorem inc_msg_eq_nil {j : NodeID} (hlive : j ∈ E.live) : (S.inc j).msg = [] := by
  cases hch : (S.inc j).msg with
  | nil => rfl
  | cons x rest =>
    exact (hstuck ⟨_, Step.forward (hup j (Env.mem_live.1 hlive).1) (Or.inl rfl)
      (.take (inc_relay_eq_none hS hup hwhole hstuck hwait hlive) hch), hwhole.congr rfl rfl⟩).elim

include hlisten in
/-- **Everything has come through** to a node that is ready for a message. -/
theorem settled_of_ready {i j : NodeID} (hi : i ∈ E.members) (hj : j ∈ E.live)
    (hready : ∀ m, ∃ r, M.recv j (S.host j).st m = some r) : S.Settled i j where
  out := through hup hlisten hwhole hstuck hwait hi j
  written _ _ hc := (Conn.mk.inj (conn_eq hup hwhole hstuck hwait hi hc)).2
  reader := (link_rest hS hup hwhole hstuck hwait hi (Env.mem_live.1 hj).1).1
  stream := (link_rest hS hup hwhole hstuck hwait hi (Env.mem_live.1 hj).1).2
  msg := inc_msg_eq_nil hS hup hwhole hstuck hwait hj
  relay := inc_relay_eq_none hS hup hwhole hstuck hwait hj
  recvCh := recvCh_eq_nil hup hwhole hstuck hwait (Env.mem_live.1 hj).1 hready

include hlisten in
/-- **Nothing is in flight** to a node that is ready for a message. -/
theorem not_inFlight (hM : M.hosts = E.members) {w : NodeWorld D J}
    (hw : M.Reach Machine.anyInput w) (hhost : w.host = S.host) (hacc : S.Accounts E) {j : NodeID}
    (hlive : j ∈ E.live) (hready : ∀ m, ∃ r, M.recv j (S.host j).st m = some r) (m : Msg D) :
    (j, m) ∉ w.net := by
  have hj := (Env.mem_live.1 hlive).1
  have hch := recvCh_eq_nil hup hwhole hstuck hwait hj hready
  have hown := (hS.inc j).own
  rw [hch, List.append_nil] at hown
  have hcount (l : List (Msg D)) : l.count m = l.countP fun m' => decide (m' = m) :=
    List.countP_congr fun _ _ => by simp
  -- what the nodes have put out for `j` is what `j` has handled
  have hsent : M.sentTo w j (fun m' => decide (m' = m)) =
      (w.host j).received.countP fun m' => decide (m' = m) := by
    have hterm : ∀ i ∈ M.hosts.toFinset,
        (w.host i).outs.countP (Out.brings i j fun m' => decide (m' = m)) =
          (if i = j then (comingFrom none (S.inc j).handled).countP (fun m' => decide (m' = m)) else 0) +
            (comingFrom (some i) (S.inc j).handled).countP fun m' => decide (m' = m) := by
      intro i hi
      have hi : i ∈ E.members := hM ▸ List.mem_toFinset.1 hi
      have hsettled := settled_of_ready hS hup hlisten hwhole hstuck hwait hi hlive hready
      rw [hhost, hacc i hi j hj m, sending_eq_nil hup hwhole hstuck hwait hi,
        waiting_eq_nil hup hwhole hstuck hwait hi, hS.handled_eq hsettled, hcount, hcount]
      by_cases hij : i = j
      · subst hij
        simp [broughtBy, hown]
      · simp [broughtBy, hij, Ne.symm hij]
    have hj' : j ∈ M.hosts.toFinset := List.mem_toFinset.2 (hM ▸ hj)
    rw [Machine.sentTo, Finset.sum_congr rfl hterm, Finset.sum_add_distrib, Finset.sum_ite_eq', if_pos hj',
      hhost, ← hS.handled j]
    refine (countP_comingFrom M.hosts _ fun i m' h => ?_).symm
    rw [hM]
    exact hS.source (List.mem_append_left _ h)
  have hconserve := hw.conserve (hM ▸ hj) fun m' => decide (m' = m)
  intro hnet
  have hpos : 0 < Machine.inFlight w j fun m' => decide (m' = m) :=
    List.countP_pos_iff.2 ⟨_, hnet, by simp⟩
  omega

include hlisten in
/-- **No node can move** in the world of a deployment that stands still. -/
theorem not_canMove (hM : M.hosts = E.members)
    (heven : ∀ i c m r, M.recv i c m = some r → ∀ m', ∃ r', M.recv i c m' = some r')
    {w : NodeWorld D J} (hw : M.Reach Machine.anyInput w) (hhost : w.host = S.host)
    (hacc : S.Accounts E) {j : NodeID} (hlive : j ∈ E.live) : ¬ CanMove M counts w j := by
  have hj := (Env.mem_live.1 hlive).1
  rintro (⟨a, r, hcount, hr⟩ | ⟨m, r, hnet, hr⟩)
  · rw [hhost] at hcount hr
    have hact : (only M counts).input j (S.host j) (.act a) =
        some (⟨r.1, (S.host j).received, (S.host j).outs ++ r.2⟩, r.2) := by
      simp [Machine.input, only, hcount, hr]
    cases hrun : Served.ofRun a with
    | true =>
      exact hstuck ⟨_, Step.run (hup j hj) hrun (sending_eq_nil hup hwhole hstuck hwait hj) hact,
        hwhole.congr rfl rfl⟩
    | false => exact hstuck ⟨_, Step.task (hup j hj) hrun hact, hwhole.congr rfl rfl⟩
  · rw [hhost] at hr
    exact not_inFlight hS hup hlisten hwhole hstuck hwait hM hw hhost hacc hlive (heven _ _ _ _ hr) m hnet

end Stuck

/-- **A deployment goes on as long as its world does**: some goroutine can go on, or one waits at a full
channel, or no live node of the world that the deployment refines can move. -/
theorem Reach.goes_on (counts : Node D J → Act → Prop) (hM : M.hosts = E.members)
    (hos : ∀ w, M.Reach Machine.anyInput w → ∀ i, Public (w.host i).outs)
    (heven : ∀ i c m r, M.recv i c m = some r → ∀ m', ∃ r', M.recv i c m' = some r')
    (halive : ∀ w, M.Reach Machine.anyInput w → ∀ i ∈ E.members, (w.host i).st.crashed = false)
    (hS : Reach E M S) (hwhole : S.Whole) :
    (∀ i ∈ E.members, (S.host i).st.crashed = false) ∧
      (S.Moves E M counts ∨ (∃ i ∈ E.members, S.Waits E i) ∨
        ∃ w, M.Reach Machine.anyInput w ∧ w.host = S.host ∧ ∀ i ∈ E.live, ¬ CanMove M counts w i) := by
  obtain ⟨haimed, w, hw, hhost, hacc⟩ := hS.refines_aimed hM hos
  have hcrash : ∀ i ∈ E.members, (S.host i).st.crashed = false := fun i hi => hhost ▸ halive w hw i hi
  refine ⟨hcrash, ?_⟩
  by_contra hno
  obtain ⟨hstuck, hno⟩ := not_or.1 hno
  obtain ⟨hwait, hno⟩ := not_or.1 hno
  refine hno ⟨w, hw, hhost, fun i hi => ?_⟩
  exact not_canMove hS.inv (fun i hi => ⟨hi, hcrash i hi⟩) (haimed.listening hS.inv) hwhole hstuck
    (fun i hi h => hwait ⟨i, hi, h⟩) hM heven hw hhost hacc hi

end Deployment

/-! ## The protocols -/

namespace Deployed

open Deployment

/-- Four nodes, of which node 0 is silent. -/
def silentEnv : Env ℕ := { Env.plain 4 fun _ => 1 with faults := 1 }

/-- The proposal of node 1 is on the `recvCh` of node 2, and no connection has failed. -/
def UnderWay (S : Deployment ℕ J) : Prop := S.Whole ∧ ∃ m, (S.inc 2).recvCh = [(some 1, m)]

theorem underWay {M : NodeMachine ℕ J} (hstart : ∀ i, (M.start i).st.crashed = false)
    {host : NodeHost ℕ J} {p : ProposeMsg ℕ} (hhost : host.st.crashed = false)
    (hboot : M.input 1 (M.start 1) (.act .boot) = some (host, [.bcast (.propose p)])) :
    ∃ S, Deployment.Reach silentEnv M S ∧ UnderWay S := by
  have hroom : 0 < 1000 := by decide
  have h₁ : (1 : NodeID) ∈ silentEnv.members := by decide
  have h₂ : (2 : NodeID) ∈ silentEnv.members := by decide
  have h : Deployment.Reach silentEnv M (Deployment.start M) := .refl
  have h := h.tail (.run (i := 1) (a := .boot) ⟨h₁, hstart 1⟩ rfl rfl hboot)
  have h := h.tail (.send (i := 1) ⟨h₁, hhost⟩ (.run rfl) (List.Perm.refl _) (.post _ hroom))
  have h := h.tail (.relay (i := 1) ⟨h₁, hhost⟩ (Or.inl rfl) (.take rfl rfl))
  have h := h.tail (.relay (i := 1) ⟨h₁, hhost⟩ (Or.inr rfl) (.pass rfl (.send _ hroom)))
  have h := h.tail (.sender (i := 1) ⟨h₁, hhost⟩ (by simp) (by simp) (.sender (by simp) (.take rfl rfl)))
  -- it connects to everybody, also to the silent node
  have h := h.tail (.sender (i := 1) ⟨h₁, hhost⟩ (by simp)
    (fun _ _ _ _ hpc => by cases hpc; decide) (.sender (by simp) (.dial rfl rfl)))
  have h := h.tail (.sender (i := 1) ⟨h₁, hhost⟩ (by simp)
    (fun _ _ _ _ hpc => by cases hpc; decide) (.sender (by simp) (.dial rfl rfl)))
  have h := h.tail (.sender (i := 1) ⟨h₁, hhost⟩ (by simp)
    (fun _ _ _ _ hpc => by cases hpc; decide) (.sender (by simp) (.dial rfl rfl)))
  have h := h.tail (.sender (i := 1) ⟨h₁, hhost⟩ (by simp) (by simp) (.sender (by simp) (.next rfl)))
  have h := h.tail (.sender (i := 1) ⟨h₁, hhost⟩ (by simp) (by simp)
    (.sender (by simp) (.fetch (a := 2) rfl)))
  have h := h.tail (.wrote (i := 1) (a := 2) ⟨h₁, hhost⟩ rfl (.sender (by simp) (.wrote rfl)) (.write _))
  -- node 2 reads the proposal
  have h := h.tail (.read (i := 1) (j := 2) ⟨h₂, hstart 2⟩ (Or.inl rfl) (.decode trivial rfl))
  have h := h.tail (.read (i := 1) (j := 2) ⟨h₂, hstart 2⟩ (Or.inl rfl) (.decode trivial rfl))
  have h := h.tail (.arrive (i := 1) (j := 2) ⟨h₂, hstart 2⟩ (.hand rfl) (.arrive _ _ hroom))
  have h := h.tail (.forward (j := 2) ⟨h₂, hstart 2⟩ (Or.inl rfl) (.take rfl rfl))
  have h := h.tail (.forward (j := 2) ⟨h₂, hstart 2⟩ (Or.inr rfl) (.pass rfl rfl hroom))
  have hwhole : (start M).Whole := Whole.start
  refine ⟨_, h, hwhole.update_out (i := 1) (by simp only [Function.update_idem]; rfl) ?_ ?_ fun i j => ?_, _,
    rfl⟩
  · change ∀ x ∈ [((0 : NodeID), Msg.propose p, true), (2, Msg.propose p, true), (3, Msg.propose p, true)],
      x.2.2 = true
    simp
  · refine not_returned_update (not_returned_update (not_returned_update (not_returned_update
      (not_returned_update (hwhole.written 1) _ ?_) _ ?_) _ ?_) _ ?_) _ ?_ <;> simp
  · by_cases hij : i = 1 ∧ j = 2
    · obtain ⟨rfl, rfl⟩ := hij
      rfl
    · simp only [Deployment.start, Function.update_idem, Function.update_self]
      rw [update_link_ne _ _ hij]

end Deployed

/-- **Where a deployment of the big protocol can stop**, as long as no connection fails. No node of an honest
committee of which at most `f` are silent panics, and some goroutine can go on, unless one waits at a full
channel, the main loop and the commitor of a live node wait for each other, or the reports of the view are
divided between the levels. -/
theorem big_deployment_stops {E : Env D} {S : Deployment D (BigJob D)} (hE : E.Honest) (hn : 1 ≤ E.n)
    (hf : E.faults ≤ E.tolerated) (hS : Deployment.Reach E (BigCore.machine E) S) (hwhole : S.Whole) :
    (∀ i ∈ E.members, (S.host i).st.crashed = false) ∧
      (S.Moves E (BigCore.machine E) BigCore.Toils ∨ (∃ i ∈ E.members, S.Waits E i) ∨
        ∃ w, (BigCore.machine E).Reach Machine.anyInput w ∧ w.host = S.host ∧
          ((∃ i ∈ E.live, BigCore.Jammed E w i) ∨ ∃ view, BigCore.Starved E w view)) := by
  obtain ⟨hcrash, hgo⟩ := hS.goes_on BigCore.Toils rfl (fun _ hw => BigCore.public hw)
    (fun _ _ _ _ hr _ => ⟨_, if_pos (BigCore.handle_of_recv hr).1⟩)
    (fun w hw i hi => BigCore.not_crashed hE hw hi) hwhole
  refine ⟨hcrash, hgo.imp_right (Or.imp_right ?_)⟩
  rintro ⟨w, hw, hhost, hstuck⟩
  refine ⟨w, hw, hhost, (BigCore.stops_only_starved hE hw hn hf).2.resolve_left ?_⟩
  rintro ⟨i, hi, h⟩
  exact hstuck i hi h

open Deployed in
theorem big_deployment_stops_four : silentEnv.Honest ∧ silentEnv.live = {1, 2, 3} ∧
    ∃ S, Deployment.Reach silentEnv (BigCore.machine silentEnv) S ∧ UnderWay S ∧
      (S.Moves silentEnv (BigCore.machine silentEnv) BigCore.Toils ∨
        (∃ i ∈ silentEnv.members, S.Waits silentEnv i) ∨
        ∃ w, (BigCore.machine silentEnv).Reach Machine.anyInput w ∧ w.host = S.host ∧
          ((∃ i ∈ silentEnv.live, BigCore.Jammed silentEnv w i) ∨
            ∃ view, BigCore.Starved silentEnv w view)) := by
  have hE : silentEnv.Honest := Env.plain_honest 4 _ 1
  obtain ⟨S, hS, hway⟩ := underWay (M := BigCore.machine silentEnv) (fun _ => rfl) rfl rfl
  exact ⟨hE, by decide, S, hS, hway,
    (big_deployment_stops hE (by decide) (by decide) hS hway.1).2⟩

/-- **Where a deployment of the DAG variant can stop**, as long as no connection fails. No node of an honest
committee of which at most `f` are silent panics, and some goroutine can go on, unless one waits at a full
channel or the coins of the views have been missed by so many that no quorum is left. -/
theorem dag_deployment_stops {E : Env D} {S : Deployment D (BigJob D)} (hE : E.Honest) (hn : 1 ≤ E.n)
    (hf : E.faults ≤ E.tolerated) (hS : Deployment.Reach E (DAGBigCore.machine E) S) (hwhole : S.Whole) :
    (∀ i ∈ E.members, (S.host i).st.crashed = false) ∧
      (S.Moves E (DAGBigCore.machine E) DAGBigCore.Toils ∨ (∃ i ∈ E.members, S.Waits E i) ∨
        ∃ w, (DAGBigCore.machine E).Reach Machine.anyInput w ∧ w.host = S.host ∧
          ∃ view, DAGBigCore.Missed E w view) := by
  obtain ⟨hcrash, hgo⟩ := hS.goes_on DAGBigCore.Toils rfl (fun _ hw => DAGBigCore.public hw)
    (fun _ _ _ _ hr _ => ⟨_, if_pos (DAGBigCore.handle_of_recv hr).1⟩)
    (fun w hw i hi => DAGBigCore.not_crashed hE hw hi) hwhole
  refine ⟨hcrash, hgo.imp_right (Or.imp_right ?_)⟩
  rintro ⟨w, hw, hhost, hstuck⟩
  refine ⟨w, hw, hhost, (DAGBigCore.stops_only_missed hE hw hn hf).2.resolve_left ?_⟩
  rintro ⟨i, hi, h⟩
  exact hstuck i hi h

open Deployed in
theorem dag_deployment_stops_four : silentEnv.Honest ∧ silentEnv.live = {1, 2, 3} ∧
    ∃ S, Deployment.Reach silentEnv (DAGBigCore.machine silentEnv) S ∧ UnderWay S ∧
      (S.Moves silentEnv (DAGBigCore.machine silentEnv) DAGBigCore.Toils ∨
        (∃ i ∈ silentEnv.members, S.Waits silentEnv i) ∨
        ∃ w, (DAGBigCore.machine silentEnv).Reach Machine.anyInput w ∧ w.host = S.host ∧
          ∃ view, DAGBigCore.Missed silentEnv w view) := by
  have hE : silentEnv.Honest := Env.plain_honest 4 _ 1
  obtain ⟨S, hS, hway⟩ := underWay (M := DAGBigCore.machine silentEnv) (fun _ => rfl) rfl rfl
  exact ⟨hE, by decide, S, hS, hway,
    (dag_deployment_stops hE (by decide) (by decide) hS hway.1).2⟩

end S2Pac
