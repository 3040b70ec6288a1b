import S2Pac.Transmitor
import S2Pac.BigCore.Tally
import S2Pac.DAGBigCore.Progress
import S2Pac.Protocols
import S2Pac.StoreQueue

/-!
# Nodes on a network

The nodes of a committee with everything that is between them: the calls by which `Run` and the goroutines
of the instances hand over their messages, the transmitors, the senders, the TCP connections and the
receivers. Every goroutine takes its steps in any order with the others, and waits where a channel is full
or empty; connections cannot be made, break and lose what is on them. A node whose process has panicked does
nothing any more.

The protocols are verified on worlds in which a message is simply in flight. Here it is shown that this is
enough: the nodes of a deployment are at every moment the nodes of such a world (`deployment_refines`). What
the network adds to that is an order: the messages of one node to another arrive in the order in which
they were sent, without gaps (`link_fifo`).
-/

set_option linter.unusedSectionVars false

namespace S2Pac

open Lib

variable {D : Type} [DecidableEq D] {J : Type}

/-! ## Calls -/

/-- How a node hands over a message. -/
inductive SendCall (D : Type) where
  /-- `transmitor.Send(nodeID, receiver, msg)`. -/
  | send (receiver : NodeID) (msg : Msg D)
  /-- `transmitor.RecvChannel() <- msg`. -/
  | own (msg : Msg D)

/-- The calls for an output of the node `me`. -/
def callsOf (me : NodeID) : NodeOut D → List (SendCall D)
  | .bcast m => [.send NONE m, .own m]
  | .others m => [.send NONE m]
  | .to i m => if i = me then [.own m] else [.send i m]
  | .event _ => []

/-- How often a call brings `m` to `j`. -/
def SendCall.brings (E : Env D) (me j : NodeID) (m : Msg D) : SendCall D → ℕ
  | .send receiver msg => (Sender.sentTo j [netMessage E me receiver msg]).count m
  | .own msg => if j = me ∧ msg = m then 1 else 0

/-- How often a list of calls does. -/
def broughtBy (E : Env D) (me j : NodeID) (m : Msg D) (cs : List (SendCall D)) : ℕ :=
  (cs.map (SendCall.brings E me j m)).sum

theorem broughtBy_append (E : Env D) (me j : NodeID) (m : Msg D) (cs cs' : List (SendCall D)) :
    broughtBy E me j m (cs ++ cs') = broughtBy E me j m cs + broughtBy E me j m cs' := by
  simp [broughtBy]

theorem count_sentTo_singleton (j : NodeID) (nm : NetMessage NodeID (Msg D)) (m : Msg D) :
    (Sender.sentTo j [nm]).count m = if nm.msg = m then nm.address.count j else 0 := by
  obtain ⟨msg, address⟩ := nm
  simp only [Sender.sentTo, Sender.addressed, List.flatMap_cons, List.flatMap_nil, List.append_nil]
  induction address with
  | nil => simp
  | cons a address ih =>
    by_cases ha : a = j
    · subst ha
      simp only [List.map_cons, comingFrom_cons_self, List.count_cons, ih]
      by_cases hm : msg = m <;> simp [hm]
    · simp only [List.map_cons, comingFrom_cons_ne ha, ih, List.count_cons_of_ne ha]

/-- **The calls for an output bring it to whom it is for.** An output for a single node names one: `NONE`
would send it to everybody. -/
theorem broughtBy_callsOf (E : Env D) (me : NodeID) {j : NodeID} (hj : j ∈ E.members) (m : Msg D)
    {o : NodeOut D} (ho : ∀ i m', o = .to i m' → i ≠ NONE) :
    broughtBy E me j m (callsOf me o) = if o.brings me j (fun m' => decide (m' = m)) then 1 else 0 := by
  have hothers : (E.members.filter fun i => decide (i ≠ me)).count j = if j = me then 0 else 1 := by
    split
    · next h =>
      subst h
      exact List.count_eq_zero_of_not_mem (by simp)
    · next h =>
      rw [List.count_filter (by simpa using h)]
      exact List.count_eq_one_of_mem E.members_nodup hj
  have hall (m' : Msg D) : (Sender.sentTo j [netMessage E me NONE m']).count m =
      if m' = m then if j = me then 0 else 1 else 0 := by
    rw [count_sentTo_singleton]
    simp only [netMessage, if_true, hothers]
  cases o with
  | bcast m' =>
    simp only [broughtBy, callsOf, List.map_cons, List.map_nil, List.sum_cons, List.sum_nil,
      SendCall.brings, hall]
    by_cases hm : m' = m <;> by_cases hjm : j = me <;> simp [hm, hjm, Out.brings, Out.msgTo]
  | others m' =>
    simp only [broughtBy, callsOf, List.map_cons, List.map_nil, List.sum_cons, List.sum_nil,
      SendCall.brings, hall]
    by_cases hm : m' = m <;> by_cases hjm : j = me <;> simp [hm, hjm, Out.brings, Out.msgTo]
  | «to» i m' =>
    have hi := ho i m' rfl
    by_cases him : i = me
    · subst him
      simp only [broughtBy, callsOf, if_true, List.map_cons, List.map_nil, List.sum_cons, List.sum_nil,
        SendCall.brings]
      by_cases hm : m' = m <;> by_cases hjm : j = i <;> simp [hm, hjm, Out.brings, Out.msgTo]
    · simp only [broughtBy, callsOf, if_neg him, List.map_cons, List.map_nil, List.sum_cons, List.sum_nil,
        SendCall.brings, count_sentTo_singleton, netMessage, if_neg hi]
      by_cases hjm : j = i
      · simp [hjm, Out.brings, Out.msgTo]
      · simp [hjm, Ne.symm hjm, Out.brings, Out.msgTo]
  | event e => rfl

/-! ## The deployment -/

structure Deployment (D J : Type) where
  host : NodeID → NodeHost D J
  /-- The calls that `Run` has still to make before it goes on. -/
  sending : NodeID → List (SendCall D)
  /-- The calls of the other goroutines. -/
  waiting : NodeID → List (SendCall D)
  out : NodeID → Outgoing D
  /-- The connection that the first node has made to the second one. -/
  link : NodeID → NodeID → Link D
  inc : NodeID → Incoming D

namespace Deployment

/-- The process of node `i` is running. -/
def Up (E : Env D) (S : Deployment D J) (i : NodeID) : Prop :=
  i ∈ E.members ∧ (S.host i).st.crashed = false

/-- Before the first step. -/
def start (M : NodeMachine D J) : Deployment D J :=
  ⟨M.start, fun _ => [], fun _ => [], fun _ => .new, fun _ _ => .new, fun _ => .new⟩

/-- Node `i` makes the call `c`, the next one of `Run` or one of another goroutine. -/
inductive Calls (i : NodeID) (c : SendCall D) : Deployment D J → Deployment D J → Prop
  | run {S : Deployment D J} {rest : List (SendCall D)} : S.sending i = c :: rest →
      Calls i c S { S with sending := Function.update S.sending i rest }
  | other {S : Deployment D J} {k : ℕ} : (S.waiting i)[k]? = some c →
      Calls i c S { S with waiting := Function.update S.waiting i ((S.waiting i).eraseIdx k) }

/-- The address that `Run` of the sender is at is one of the committee: nobody listens anywhere else. -/
def Listening (E : Env D) (s : Sender NodeID (Msg D)) : Prop :=
  ∀ msg a rest, s.pc = .sending msg (a :: rest) → a ∈ E.members

/-- **One step.** What `Run` starts after a call it may start before it here; otherwise `Run` waits for its
calls. -/
inductive Step (E : Env D) (M : NodeMachine D J) : Deployment D J → Deployment D J → Prop
  /-- `Run` takes a message and handles it. -/
  | recv {S : Deployment D J} {i : NodeID} {m : Msg D} {q : Incoming D}
      {r : NodeHost D J × List (NodeOut D)} : S.Up E i → S.sending i = [] →
      Incoming.Step (.recv m) (S.inc i) q → M.input i (S.host i) (.recv m) = some r →
      Step E M S { S with
        host := Function.update S.host i r.1
        sending := Function.update S.sending i (r.2.flatMap (callsOf i))
        inc := Function.update S.inc i q }
  /-- `Run` takes another step. -/
  | run {S : Deployment D J} {i : NodeID} {a : Act} {r : NodeHost D J × List (NodeOut D)} :
      S.Up E i → Served.ofRun a = true → S.sending i = [] → M.input i (S.host i) (.act a) = some r →
      Step E M S { S with
        host := Function.update S.host i r.1
        sending := Function.update S.sending i (r.2.flatMap (callsOf i)) }
  /-- Another goroutine of the node takes a step. -/
  | task {S : Deployment D J} {i : NodeID} {a : Act} {r : NodeHost D J × List (NodeOut D)} :
      S.Up E i → Served.ofRun a = false → M.input i (S.host i) (.act a) = some r →
      Step E M S { S with
        host := Function.update S.host i r.1
        waiting := Function.update S.waiting i (S.waiting i ++ r.2.flatMap (callsOf i)) }
  /-- A message is put on `recvCh`. -/
  | own {S S' : Deployment D J} {i : NodeID} {m : Msg D} {q : Incoming D} : S.Up E i →
      Calls i (.own m) S S' → Incoming.Step (.own m) (S.inc i) q →
      Step E M S { S' with inc := Function.update S.inc i q }
  /-- `Send` puts a message on `msgCh`. A broadcast lists the peers in any order: the committee is a map. -/
  | send {S S' : Deployment D J} {i receiver : NodeID} {m : Msg D} {address : List NodeID}
      {o : Outgoing D} : S.Up E i → Calls i (.send receiver m) S S' →
      address.Perm (netMessage E i receiver m).address →
      Outgoing.Step (.post ⟨m, address⟩) (S.out i) o →
      Step E M S { S' with out := Function.update S.out i o }
  /-- The goroutine behind `msgCh` takes a step, -/
  | relay {S : Deployment D J} {i : NodeID} {mv : OutMove D} {o : Outgoing D} : S.Up E i →
      mv = .take ∨ mv = .pass → Outgoing.Step mv (S.out i) o →
      Step E M S { S with out := Function.update S.out i o }
  /-- or the sender, without writing. -/
  | sender {S : Deployment D J} {i : NodeID} {mv : SenderMove NodeID (Msg D)} {o : Outgoing D} :
      S.Up E i → (∀ a, mv ≠ .wrote a ∧ mv ≠ .fail a) → (mv = .dial → Listening E (S.out i).sender) →
      Outgoing.Step (.sender mv) (S.out i) o →
      Step E M S { S with out := Function.update S.out i o }
  /-- A message is written to a connection, -/
  | wrote {S : Deployment D J} {i a : NodeID} {m : Msg D} {ch : List (Msg D)} {o : Outgoing D}
      {l : Link D} : S.Up E i → (S.out i).sender.conns a = some ⟨ch, .writing m⟩ →
      Outgoing.Step (.sender (.wrote a)) (S.out i) o →
      Link.Step (.write (Codec.write m.wire)) (S.link i a) l →
      Step E M S { S with
        out := Function.update S.out i o
        link := Function.update S.link i (Function.update (S.link i) a l) }
  /-- or not, or not to its end. -/
  | fail {S : Deployment D J} {i a : NodeID} {m : Msg D} {ch : List (Msg D)} {vs : List (Value D)}
      {o : Outgoing D} {l : Link D} : S.Up E i →
      (S.out i).sender.conns a = some ⟨ch, .writing m⟩ → vs <+: Codec.write m.wire →
      Outgoing.Step (.sender (.fail a)) (S.out i) o → Link.Step (.write vs) (S.link i a) l →
      Step E M S { S with
        out := Function.update S.out i o
        link := Function.update S.link i (Function.update (S.link i) a l) }
  /-- The goroutine that reads from `i` decodes a value, or gets an error. -/
  | read {S : Deployment D J} {i j : NodeID} {mv : LinkMove D} {l : Link D} : S.Up E j →
      mv = .decode ∨ mv = .broken → Link.Step mv (S.link i j) l →
      Step E M S { S with link := Function.update S.link i (Function.update (S.link i) j l) }
  /-- It puts a message on `Receiver.msg`. -/
  | arrive {S : Deployment D J} {i j : NodeID} {w : Wire D} {l : Link D} {q : Incoming D} : S.Up E j →
      Link.Step (.hand w) (S.link i j) l → Incoming.Step (.arrive i w) (S.inc j) q →
      Step E M S { S with
        link := Function.update S.link i (Function.update (S.link i) j l)
        inc := Function.update S.inc j q }
  /-- The goroutine in front of `recvCh` takes a step. -/
  | forward {S : Deployment D J} {j : NodeID} {mv : InMove D} {q : Incoming D} : S.Up E j →
      mv = .take ∨ mv = .pass → Incoming.Step mv (S.inc j) q →
      Step E M S { S with inc := Function.update S.inc j q }

/-- The states that can be reached. -/
abbrev Reach (E : Env D) (M : NodeMachine D J) (S : Deployment D J) : Prop :=
  Relation.ReflTransGen (Step E M) (start M) S

/-! ## Messages in order -/

/-- **What holds of the network in every state**: every half of a transmitor and every connection keeps the
order of the messages, and `Run` handles them in the order of `recvCh`. -/
structure Inv (E : Env D) (S : Deployment D J) : Prop where
  out : ∀ i, (S.out i).Inv
  link : ∀ i j, (S.out i).sender.Carries j (S.link i j)
  inc : ∀ j, (S.inc j).Order fun i => (S.link i j).read
  member : ∀ i, i ∉ E.members → (S.out i).posted = []
  handled : ∀ j, (S.inc j).handled.map Prod.snd = (S.host j).received

variable {E : Env D} {M : NodeMachine D J} {S S' : Deployment D J}

theorem Inv.start : (start M).Inv E :=
  ⟨fun _ => Outgoing.Inv.new, fun _ _ => Sender.Carries.new _, fun _ => Incoming.Order.new,
    fun _ _ => rfl, fun _ => rfl⟩

section Update

variable {α β γ : Type} [DecidableEq α] [DecidableEq β]

theorem update_link_self (f : α → β → γ) (i : α) (j : β) (l : γ) :
    Function.update f i (Function.update (f i) j l) i j = l := by
  simp

theorem update_link_ne (f : α → β → γ) {i i' : α} {j j' : β} (l : γ) (h : ¬ (i' = i ∧ j' = j)) :
    Function.update f i (Function.update (f i) j l) i' j' = f i' j' := by
  by_cases hi : i' = i
  · subst hi
    rw [Function.update_self, Function.update_of_ne fun hj => h ⟨rfl, hj⟩]
  · rw [Function.update_of_ne hi]

end Update

theorem Inv.update_out (hS : S.Inv E) {i : NodeID} (hi : i ∈ E.members) {o : Outgoing D} (ho : o.Inv)
    {link : NodeID → NodeID → Link D} (hlink : ∀ j, o.sender.Carries j (link i j))
    (hother : ∀ i' j, i' ≠ i → link i' j = S.link i' j)
    (hread : ∀ i' j, (link i' j).read = (S.link i' j).read) :
    { S with out := Function.update S.out i o, link := link }.Inv E where
  out := (Function.forall_update_iff S.out fun _ o => o.Inv).2 ⟨ho, fun i' _ => hS.out i'⟩
  link := by
    refine (Function.forall_update_iff S.out fun i' o => ∀ j, o.sender.Carries j (link i' j)).2
      ⟨hlink, fun i' h j => ?_⟩
    rw [hother i' j h]
    exact hS.link i' j
  inc := by
    intro j
    simp only [hread]
    exact hS.inc j
  member := (Function.forall_update_iff S.out fun i' o => i' ∉ E.members → o.posted = []).2
    ⟨fun h => absurd hi h, fun i' _ => hS.member i'⟩
  handled := hS.handled

theorem Inv.update_written (hS : S.Inv E) {i a : NodeID} (hi : i ∈ E.members)
    {mv : SenderMove NodeID (Msg D)} {o : Outgoing D} {l : Link D}
    (ho : Outgoing.Step (.sender mv) (S.out i) o) (hmv : mv = .wrote a ∨ mv = .fail a)
    (hl : o.sender.Carries a l) (hread : l.read = (S.link i a).read) :
    { S with
      out := Function.update S.out i o
      link := Function.update S.link i (Function.update (S.link i) a l) }.Inv E := by
  refine hS.update_out hi (ho.inv (hS.out i)) (fun j => ?_) (fun i' j h => ?_) fun i' j => ?_
  · by_cases hj : j = a
    · subst hj
      rwa [update_link_self]
    · rw [update_link_ne _ _ fun h => hj h.2]
      cases ho with
      | sender _ hs => exact hs.carries_ne hmv hj (hS.link i j)
  · exact update_link_ne _ _ fun h' => h h'.1
  · by_cases h : i' = i ∧ j = a
    · obtain ⟨rfl, rfl⟩ := h
      rw [update_link_self, hread]
    · rw [update_link_ne _ _ h]

theorem Inv.update_link (hS : S.Inv E) {i j : NodeID} {l : Link D}
    (hl : (S.out i).sender.Carries j l) (hread : l.read = (S.link i j).read) :
    { S with link := Function.update S.link i (Function.update (S.link i) j l) }.Inv E where
  out := hS.out
  link := by
    intro i' j'
    by_cases h : i' = i ∧ j' = j
    · obtain ⟨rfl, rfl⟩ := h
      simpa only [update_link_self] using hl
    · simpa only [update_link_ne S.link l h] using hS.link i' j'
  inc := by
    intro j'
    have hreads (i' : NodeID) :
        (Function.update S.link i (Function.update (S.link i) j l) i' j').read = (S.link i' j').read := by
      by_cases h : i' = i ∧ j' = j
      · obtain ⟨rfl, rfl⟩ := h
        rw [update_link_self, hread]
      · rw [update_link_ne _ _ h]
    simpa only [hreads] using hS.inc j'
  member := hS.member
  handled := hS.handled

theorem Inv.update_inc (hS : S.Inv E) {j : NodeID} {q : Incoming D} {host : NodeID → NodeHost D J}
    (hq : q.Order fun i => (S.link i j).read) (hhost : ∀ j', j' ≠ j → host j' = S.host j')
    (hhandled : q.handled.map Prod.snd = (host j).received) :
    { S with host := host, inc := Function.update S.inc j q }.Inv E where
  out := hS.out
  link := hS.link
  inc := (Function.forall_update_iff S.inc fun j' q => q.Order fun i => (S.link i j').read).2
    ⟨hq, fun j' _ => hS.inc j'⟩
  member := hS.member
  handled := by
    refine (Function.forall_update_iff S.inc fun j' q =>
      q.handled.map Prod.snd = (host j').received).2 ⟨hhandled, fun j' h => ?_⟩
    rw [hhost j' h]
    exact hS.handled j'

theorem Inv.of_same (hS : S.Inv E) (hout : S'.out = S.out) (hlink : S'.link = S.link)
    (hinc : S'.inc = S.inc) (hrec : ∀ j, (S'.host j).received = (S.host j).received) : S'.Inv E := by
  obtain ⟨ho, hl, hi, hm, hh⟩ := hS
  refine ⟨hout ▸ ho, ?_, ?_, hout ▸ hm, fun j => ?_⟩
  · rw [hout, hlink]
    exact hl
  · rw [hinc, hlink]
    exact hi
  · rw [hinc, hrec]
    exact hh j

theorem received_act {i : NodeID} {a : Act} {r : NodeHost D J × List (NodeOut D)}
    (hr : M.input i (S.host i) (.act a) = some r) (j : NodeID) :
    (Function.update S.host i r.1 j).received = (S.host j).received := by
  obtain ⟨⟨s, os⟩, -, rfl⟩ := Option.map_eq_some_iff.1 hr
  by_cases h : j = i
  · subst h
    rw [Function.update_self]
  · rw [Function.update_of_ne h]

theorem Inv.update_arrive (hS : S.Inv E) {i j : NodeID} {w : Wire D} {l : Link D} {q : Incoming D}
    (hl : Link.Step (.hand w) (S.link i j) l) (hq : Incoming.Step (.arrive i w) (S.inc j) q) :
    { S with
      link := Function.update S.link i (Function.update (S.link i) j l)
      inc := Function.update S.inc j q }.Inv E where
  out := hS.out
  link := by
    intro i' j'
    by_cases h : i' = i ∧ j' = j
    · obtain ⟨rfl, rfl⟩ := h
      simpa only [update_link_self] using (hS.link i' j').read hl (by simp)
    · simpa only [update_link_ne S.link l h] using hS.link i' j'
  inc := by
    refine (Function.forall_update_iff S.inc fun j' q => q.Order fun i' =>
      (Function.update S.link i (Function.update (S.link i) j l) i' j').read).2 ⟨?_, fun j' hj => ?_⟩
    · have hread : (fun i' => (Function.update S.link i (Function.update (S.link i) j l) i' j).read) =
          Function.update (fun i' => (S.link i' j).read) i ((S.link i j).read ++ [w]) := by
        funext i'
        by_cases h : i' = i
        · subst h
          rw [update_link_self, Function.update_self]
          cases hl
          rfl
        · rw [update_link_ne _ _ fun h' => h h'.1, Function.update_of_ne h]
      rw [hread]
      exact hq.order_arrive (hS.inc j)
    · simp only [update_link_ne S.link l fun h => hj h.2]
      exact hS.inc j'
  member := hS.member
  handled := by
    refine (Function.forall_update_iff S.inc fun j' q =>
      q.handled.map Prod.snd = (S.host j').received).2 ⟨?_, fun j' _ => hS.handled j'⟩
    cases hq
    exact hS.handled j

theorem Calls.frame {i : NodeID} {c : SendCall D} (h : Calls i c S S') :
    S'.host = S.host ∧ S'.out = S.out ∧ S'.link = S.link ∧ S'.inc = S.inc := by
  cases h with
  | run _ => exact ⟨rfl, rfl, rfl, rfl⟩
  | other _ => exact ⟨rfl, rfl, rfl, rfl⟩

theorem Inv.update_recv (hS : S.Inv E) {i : NodeID} {m : Msg D} {q : Incoming D}
    {r : NodeHost D J × List (NodeOut D)} (hq : Incoming.Step (.recv m) (S.inc i) q)
    (hr : M.input i (S.host i) (.recv m) = some r) :
    { S with host := Function.update S.host i r.1, inc := Function.update S.inc i q }.Inv E := by
  refine hS.update_inc (hq.order (by simp) (hS.inc i)) (fun j h => Function.update_of_ne h ..) ?_
  obtain ⟨⟨s, os⟩, -, rfl⟩ := Option.map_eq_some_iff.1 hr
  cases hq with
  | recv hch => simp [hS.handled]

theorem Step.inv (h : Step E M S S') (hS : S.Inv E) : S'.Inv E := by
  cases h with
  | recv _ _ hq hr => exact (hS.update_recv hq hr).of_same rfl rfl rfl fun _ => rfl
  | run _ _ _ hr => exact hS.of_same rfl rfl rfl (received_act hr)
  | task _ _ hr => exact hS.of_same rfl rfl rfl (received_act hr)
  | @own S₁ i m q _ hc hq =>
    obtain ⟨hhost, hout, hlink, -⟩ := hc.frame
    have hhandled : q.handled.map Prod.snd = (S.host i).received := by
      cases hq
      exact hS.handled i
    exact (hS.update_inc (hq.order (by simp) (hS.inc i)) (fun _ _ => rfl) hhandled).of_same hout hlink
      rfl fun j => congrArg (fun h => (h j).received) hhost
  | @send S₁ i receiver m address o hup hc _ ho =>
    obtain ⟨hhost, -, hlink, hinc⟩ := hc.frame
    have hcarries (j : NodeID) : o.sender.Carries j (S.link i j) := by
      cases ho
      exact hS.link i j
    exact (hS.update_out hup.1 (ho.inv (hS.out i)) hcarries (fun _ _ _ => rfl) fun _ _ => rfl).of_same
      rfl hlink hinc fun j => congrArg (fun h => (h j).received) hhost
  | @relay i mv o hup hmv ho =>
    refine hS.update_out hup.1 (ho.inv (hS.out i)) (fun j => ?_) (fun _ _ _ => rfl) fun _ _ => rfl
    cases ho with
    | post _ _ => simp at hmv
    | take _ _ => exact hS.link i j
    | pass _ hs => exact hs.carries (by simp) (hS.link i j)
    | sender _ _ => simp at hmv
  | @sender i mv o hup hmv _ ho =>
    refine hS.update_out hup.1 (ho.inv (hS.out i)) (fun j => ?_) (fun _ _ _ => rfl) fun _ _ => rfl
    cases ho with
    | sender _ hs => exact hs.carries hmv (hS.link i j)
  | wrote hup hc ho hl =>
    refine hS.update_written hup.1 ho (Or.inl rfl) ?_ ?_
    · cases ho with
      | sender _ hs => exact hs.carries_wrote hc hl (hS.link _ _)
    · cases hl
      rfl
  | fail hup hc hvs ho hl =>
    refine hS.update_written hup.1 ho (Or.inr rfl) ?_ ?_
    · cases ho with
      | sender _ hs => exact hs.carries_fail hc hvs hl (hS.link _ _)
    · cases hl
      rfl
  | @read i j mv l _ hmv hl =>
    refine hS.update_link ((hS.link i j).read hl ?_) ?_
    · rintro vs rfl
      simp at hmv
    · rcases hmv with rfl | rfl <;> cases hl <;> rfl
  | arrive _ hl hq => exact hS.update_arrive hl hq
  | @forward j mv q _ hmv hq =>
    refine hS.update_inc (hq.order ?_ (hS.inc j)) (fun _ _ => rfl) ?_
    · rintro i w rfl
      simp at hmv
    · rcases hmv with rfl | rfl <;> cases hq <;> exact hS.handled j

theorem Reach.inv (hS : Reach E M S) : S.Inv E := by
  induction hS with
  | refl => exact Inv.start
  | tail _ hs ih => exact hs.inv ih

end Deployment

theorem Msg.wire_injective : Function.Injective (Msg.wire : Msg D → Wire D) := by
  intro m m' h
  have hmsg := congrArg Wire.msg h
  rw [m.wire_msg, m'.wire_msg] at hmsg
  exact Option.some.inj hmsg

namespace Deployment

variable {E : Env D} {M : NodeMachine D J} {S S' : Deployment D J}

/-- What has been read from a connection are the first of the messages that were taken for it. -/
theorem Inv.read_isPrefix (hS : S.Inv E) (i j : NodeID) :
    (S.link i j).read <+: ((S.out i).sender.taken j).map Msg.wire := by
  obtain ⟨rest, -, hflow⟩ := hS.link i j
  exact hflow.kept

/-- **What is on `recvCh` or was handled of the messages of one node is a stretch of what it has sent.** -/
theorem Inv.comingFrom_isInfix (hS : S.Inv E) (i j : NodeID) :
    comingFrom (some i) ((S.inc j).handled ++ (S.inc j).recvCh) <:+:
      Sender.sentTo j (S.out i).posted := by
  have hwire := ((hS.inc j).handled_isPrefix i).trans (hS.read_isPrefix i j)
  have hprefix := (List.prefix_map_iff_of_injective Msg.wire_injective).1 hwire
  exact hprefix.isInfix.trans ((hS.out i).taken_isInfix j)

/-- The network makes a process panic: a connection has a number on it that stands for no type, or the
transmitor is handed a value that is no message. -/
def Panics (S : Deployment D J) : Prop :=
  (∃ i j, (S.link i j).reader = .panicked) ∨ ∃ i j w, (S.inc j).relay = some (i, w) ∧ w.msg = none

theorem Inv.not_panics (hS : S.Inv E) : ¬ S.Panics := by
  rintro (⟨i, j, h⟩ | ⟨i, j, w, hrelay, hw⟩)
  · obtain ⟨rest, -, hflow⟩ := hS.link i j
    exact hflow.sane h
  · -- the value was read, so that it was written for a message
    have hread : w ∈ (S.link i j).read := by
      rw [← (hS.inc j).peer i, hrelay]
      simp
    obtain ⟨m, -, rfl⟩ := List.mem_map.1 ((hS.read_isPrefix i j).subset hread)
    rw [m.wire_msg] at hw
    cases hw

/-- **Everything from `i` to `j` has come through**: no connection failed, and nothing is on the way. -/
structure Settled (S : Deployment D J) (i j : NodeID) : Prop where
  out : (S.out i).Through j
  written : ∀ ch writer, (S.out i).sender.conns j = some ⟨ch, writer⟩ → writer = .ranging
  reader : (S.link i j).reader = .typeId
  stream : (S.link i j).stream = []
  msg : (S.inc j).msg = []
  relay : (S.inc j).relay = none
  recvCh : (S.inc j).recvCh = []

theorem Inv.handled_eq (hS : S.Inv E) {i j : NodeID} (h : S.Settled i j) :
    comingFrom (some i) (S.inc j).handled = Sender.sentTo j (S.out i).posted := by
  obtain ⟨rest, hrest, hflow⟩ := hS.link i j
  obtain rfl : rest = [] := by
    have hwritten := h.written
    cases hc : (S.out i).sender.conns j with
    | none => simpa [hc, Owes] using hrest
    | some c =>
      obtain ⟨ch, writer⟩ := c
      obtain rfl := hwritten ch writer hc
      simpa [hc, Owes] using hrest
  have hread : (S.link i j).read = ((S.out i).sender.taken j).map Msg.wire := by
    refine Codec.writeAll_injective ?_
    rw [← hflow.place (by simp [h.reader]), h.reader, h.stream]
    simp [ConnReader.held]
  have hpeer := (hS.inc j).peer i
  rw [h.recvCh, h.relay, h.msg, hread] at hpeer
  simp only [List.append_nil, Option.toList_none, comingFrom_nil] at hpeer
  rw [← (hS.out i).taken_eq h.out]
  exact Msg.wire_injective.list_map hpeer

/-! ## Every message that is handled was sent -/

/-- **The books of the calls**: what a node has put out is sent, or put on its own `recvCh`, or waits for
its call. -/
def Accounts (E : Env D) (S : Deployment D J) : Prop :=
  ∀ i ∈ E.members, ∀ j ∈ E.members, ∀ m,
    (S.host i).outs.countP (Out.brings i j fun m' => decide (m' = m)) =
      (if j = i then (S.inc i).own.count m else 0) + (Sender.sentTo j (S.out i).posted).count m +
        broughtBy E i j m (S.sending i ++ S.waiting i)

theorem Accounts.start : (start M).Accounts E := by
  intro i _ j _ m
  simp [Deployment.start, Machine.start, Incoming.new, Outgoing.new, broughtBy]

/-- No output is for `NONE` alone. -/
def Addressed (os : List (NodeOut D)) : Prop := ∀ i m, Out.to i m ∈ os → i ≠ NONE

/-- No output is for a single node. -/
def Public (os : List (NodeOut D)) : Prop := ∀ i m, Out.to i m ∉ os

theorem Public.addressed {os : List (NodeOut D)} (h : Public os) : Addressed os :=
  fun i m ho => absurd ho (h i m)

theorem broughtBy_flatMap (E : Env D) (me : NodeID) {j : NodeID} (hj : j ∈ E.members) (m : Msg D)
    {os : List (NodeOut D)} (hos : Addressed os) :
    broughtBy E me j m (os.flatMap (callsOf me)) =
      os.countP (Out.brings me j fun m' => decide (m' = m)) := by
  induction os with
  | nil => rfl
  | cons o os ih =>
    have ih := ih fun i m' h => hos i m' (List.mem_cons_of_mem _ h)
    have ho := broughtBy_callsOf E me hj m (o := o) fun i m' h => hos i m' (h ▸ List.mem_cons_self)
    rw [List.flatMap_cons, broughtBy_append, ho, ih, List.countP_cons, Nat.add_comm]

theorem Accounts.of_same (hS : S.Accounts E) (houts : ∀ i, (S'.host i).outs = (S.host i).outs)
    (hown : ∀ i, (S'.inc i).own = (S.inc i).own) (hposted : ∀ i, (S'.out i).posted = (S.out i).posted)
    (hsending : S'.sending = S.sending) (hwaiting : S'.waiting = S.waiting) : S'.Accounts E := by
  intro i hi j hj m
  rw [houts, hown, hposted, hsending, hwaiting]
  exact hS i hi j hj m

theorem Accounts.step (hS : S.Accounts E) {i : NodeID} {x : Input (Msg D) Act}
    {r : NodeHost D J × List (NodeOut D)} (hr : M.input i (S.host i) x = some r)
    (hos : Addressed r.2) (hhost : S'.host = Function.update S.host i r.1)
    (hown : ∀ i', (S'.inc i').own = (S.inc i').own) (hout : S'.out = S.out)
    (hother : ∀ i', i' ≠ i → S'.sending i' ++ S'.waiting i' = S.sending i' ++ S.waiting i')
    (hcalls : (S'.sending i ++ S'.waiting i).Perm
      (S.sending i ++ S.waiting i ++ r.2.flatMap (callsOf i))) : S'.Accounts E := by
  intro i' hi' j hj m
  have hS := hS i' hi' j hj m
  rw [hown, hout, hhost]
  by_cases h : i' = i
  · subst h
    have hperm : broughtBy E i' j m (S'.sending i' ++ S'.waiting i') =
        broughtBy E i' j m (S.sending i' ++ S.waiting i' ++ r.2.flatMap (callsOf i')) :=
      (hcalls.map _).sum_eq
    rw [Function.update_self, Machine.input_outs hr, List.countP_append, hperm, broughtBy_append,
      broughtBy_flatMap E i' hj m hos, hS]
    omega
  · rw [Function.update_of_ne h, hother i' h]
    exact hS

theorem Calls.broughtBy_eq {i : NodeID} {c : SendCall D} (h : Calls i c S S') (i' j : NodeID) (m : Msg D) :
    broughtBy E i' j m (S.sending i' ++ S.waiting i') = (if i' = i then c.brings E i j m else 0) +
      broughtBy E i' j m (S'.sending i' ++ S'.waiting i') := by
  by_cases hi : i' = i
  · subst hi
    rw [if_pos rfl]
    cases h with
    | run hs =>
      rw [hs]
      simp [broughtBy]
    | @other k hk =>
      have hperm : (S.waiting i').Perm (c :: (S.waiting i').eraseIdx k) := by
        obtain ⟨hlt, rfl⟩ := List.getElem?_eq_some_iff.1 hk
        exact (List.getElem_cons_eraseIdx_perm hlt).symm
      have hsum : broughtBy E i' j m (S.waiting i') =
          broughtBy E i' j m (c :: (S.waiting i').eraseIdx k) := (hperm.map _).sum_eq
      rw [broughtBy_append, hsum]
      simp only [broughtBy, List.map_cons, List.sum_cons, List.map_append, List.sum_append,
        Function.update_self]
      omega
  · rw [if_neg hi, Nat.zero_add]
    cases h with
    | run _ => simp [Function.update_of_ne hi]
    | other _ => simp [Function.update_of_ne hi]

theorem Accounts.own (hS : S.Accounts E) {i : NodeID} {m : Msg D} {q : Incoming D}
    (hc : Calls i (.own m) S S') (hq : Incoming.Step (.own m) (S.inc i) q) :
    { S' with inc := Function.update S.inc i q }.Accounts E := by
  obtain ⟨hhost, hout, -, -⟩ := hc.frame
  intro i' hi' j hj m'
  have hS := hS i' hi' j hj m'
  rw [hc.broughtBy_eq i' j m'] at hS
  simp only [hhost, hout]
  by_cases h : i' = i
  · subst h
    have hown : q.own = (S.inc i').own ++ [m] := by
      cases hq
      rfl
    rw [Function.update_self, hown, hS, if_pos rfl, SendCall.brings, List.count_append,
      List.count_singleton]
    by_cases hji : j = i'
    · by_cases hm : m = m'
      · simp only [hji, hm, if_true, and_self, beq_self_eq_true]
        omega
      · simp [hji, hm]
    · simp [hji]
  · rw [Function.update_of_ne h, hS, if_neg h, Nat.zero_add]

theorem Accounts.send (hS : S.Accounts E) {i receiver : NodeID} {m : Msg D} {address : List NodeID}
    {o : Outgoing D} (hc : Calls i (.send receiver m) S S')
    (haddr : address.Perm (netMessage E i receiver m).address)
    (ho : Outgoing.Step (.post ⟨m, address⟩) (S.out i) o) :
    { S' with out := Function.update S.out i o }.Accounts E := by
  obtain ⟨hhost, -, -, hinc⟩ := hc.frame
  intro i' hi' j hj m'
  have hS := hS i' hi' j hj m'
  rw [hc.broughtBy_eq i' j m'] at hS
  simp only [hhost, hinc]
  by_cases h : i' = i
  · subst h
    have hposted : o.posted = (S.out i').posted ++ [⟨m, address⟩] := by
      cases ho
      rfl
    have hcount : (Sender.sentTo j [⟨m, address⟩]).count m' =
        (Sender.sentTo j [netMessage E i' receiver m]).count m' := by
      rw [count_sentTo_singleton, count_sentTo_singleton, haddr.count_eq]
      rfl
    rw [Function.update_self, hposted, hS, if_pos rfl, SendCall.brings, Sender.sentTo_append,
      List.count_append, hcount]
    omega
  · rw [Function.update_of_ne h, hS, if_neg h, Nat.zero_add]

theorem posted_eq {i i' : NodeID} {mv : OutMove D} {o : Outgoing D}
    (ho : Outgoing.Step mv (S.out i) o) (hmv : ∀ nm, mv ≠ .post nm) :
    (Function.update S.out i o i').posted = (S.out i').posted := by
  by_cases h : i' = i
  · subst h
    rw [Function.update_self]
    cases ho with
    | post nm _ => exact absurd rfl (hmv nm)
    | _ => rfl
  · rw [Function.update_of_ne h]

theorem own_eq {i i' : NodeID} {mv : InMove D} {q : Incoming D}
    (hq : Incoming.Step mv (S.inc i) q) (hmv : ∀ m, mv ≠ .own m) :
    (Function.update S.inc i q i').own = (S.inc i').own := by
  by_cases h : i' = i
  · subst h
    rw [Function.update_self]
    cases hq with
    | own m _ => exact absurd rfl (hmv m)
    | _ => rfl
  · rw [Function.update_of_ne h]

theorem Step.accounts (h : Step E M S S') (hos : ∀ i ∈ E.members, Addressed (S'.host i).outs)
    (hS : S.Accounts E) : S'.Accounts E := by
  -- what a step puts out is part of what was put out
  have hnew {i : NodeID} {x : Input (Msg D) Act} {r : NodeHost D J × List (NodeOut D)}
      (hi : i ∈ E.members) (hr : M.input i (S.host i) x = some r)
      (hhost : S'.host = Function.update S.host i r.1) : Addressed r.2 := by
    intro k m hk
    refine hos i hi k m ?_
    rw [hhost, Function.update_self, Machine.input_outs hr]
    exact List.mem_append_right _ hk
  cases h with
  | recv hup hs hq hr =>
    refine hS.step hr (hnew hup.1 hr rfl) rfl (fun _ => own_eq hq (by simp)) rfl (fun i' h => ?_) ?_
    · simp only [Function.update_of_ne h]
    · simp only [Function.update_self, hs, List.nil_append]
      exact List.perm_append_comm
  | run hup _ hs hr =>
    refine hS.step hr (hnew hup.1 hr rfl) rfl (fun _ => rfl) rfl (fun i' h => ?_) ?_
    · simp only [Function.update_of_ne h]
    · simp only [Function.update_self, hs, List.nil_append]
      exact List.perm_append_comm
  | task hup _ hr =>
    refine hS.step hr (hnew hup.1 hr rfl) rfl (fun _ => rfl) rfl (fun i' h => ?_) ?_
    · simp only [Function.update_of_ne h]
    · simp only [Function.update_self, List.append_assoc]
      exact List.Perm.refl _
  | own _ hc hq => exact hS.own hc hq
  | send _ hc haddr ho => exact hS.send hc haddr ho
  | relay _ hmv ho =>
    refine hS.of_same (fun _ => rfl) (fun _ => rfl) (fun _ => posted_eq ho ?_) rfl rfl
    rintro nm rfl
    simp at hmv
  | sender _ _ _ ho =>
    exact hS.of_same (fun _ => rfl) (fun _ => rfl) (fun _ => posted_eq ho (by simp)) rfl rfl
  | wrote _ _ ho _ =>
    exact hS.of_same (fun _ => rfl) (fun _ => rfl) (fun _ => posted_eq ho (by simp)) rfl rfl
  | fail _ _ _ ho _ =>
    exact hS.of_same (fun _ => rfl) (fun _ => rfl) (fun _ => posted_eq ho (by simp)) rfl rfl
  | read _ _ _ => exact hS.of_same (fun _ => rfl) (fun _ => rfl) (fun _ => rfl) rfl rfl
  | arrive _ _ hq => exact hS.of_same (fun _ => rfl) (fun _ => own_eq hq (by simp)) (fun _ => rfl) rfl rfl
  | forward _ hmv hq =>
    refine hS.of_same (fun _ => rfl) (fun _ => own_eq hq ?_) (fun _ => rfl) rfl rfl
    rintro m rfl
    simp at hmv

/-- The next message that `Run` takes, with those that it has handled: every source has sent what comes
from it. -/
theorem sent_of_recv (hS : S.Inv E) (ha : S.Accounts E) {i : NodeID} (hi : i ∈ E.members)
    {t : Option NodeID} {m : Msg D} {rest : List (Option NodeID × Msg D)}
    (hch : (S.inc i).recvCh = (t, m) :: rest) {j : NodeID} (hj : j ∈ E.members) :
    (if j = i then (comingFrom none ((S.inc i).handled ++ [(t, m)])).count m else 0) +
      (comingFrom (some j) ((S.inc i).handled ++ [(t, m)])).count m ≤
        (S.host j).outs.countP (Out.brings j i fun m' => decide (m' = m)) := by
  have hsub (t' : Option NodeID) : (comingFrom t' ((S.inc i).handled ++ [(t, m)])).count m ≤
      (comingFrom t' ((S.inc i).handled ++ (S.inc i).recvCh)).count m := by
    rw [hch, List.append_cons _ _ rest, comingFrom_append _ ((S.inc i).handled ++ _), List.count_append]
    exact Nat.le_add_right _ _
  have hpeer := (hsub (some j)).trans ((hS.comingFrom_isInfix j i).sublist.count_le m)
  have hown := hsub none
  rw [(hS.inc i).own] at hown
  rw [ha j hj i hi m]
  by_cases hji : j = i
  · subst hji
    simp only [if_true]
    omega
  · simp only [if_neg hji, if_neg (Ne.symm hji)]
    omega

theorem Inv.source (hS : S.Inv E) {i j : NodeID} {m : Msg D}
    (h : (some j, m) ∈ (S.inc i).handled ++ (S.inc i).recvCh) : j ∈ E.members := by
  by_contra hj
  have hmem := (hS.comingFrom_isInfix j i).subset (mem_comingFrom.2 h)
  rw [hS.member j hj] at hmem
  simp at hmem

/-- **The nodes of a deployment are the nodes of a world.** -/
theorem Reach.refines (hM : M.hosts = E.members)
    (hos : ∀ w, M.Reach Machine.anyInput w → ∀ i ∈ E.members, Addressed (w.host i).outs)
    (hS : Reach E M S) : ∃ w, M.Reach Machine.anyInput w ∧ w.host = S.host ∧ S.Accounts E := by
  induction hS with
  | refl => exact ⟨M.world, Relation.ReflTransGen.refl, rfl, Accounts.start⟩
  | @tail S S' hreach hstep ih =>
    obtain ⟨w, hw, hhost, hacc⟩ := ih
    have hinv : S.Inv E := Reach.inv hreach
    suffices h : ∃ w', M.Reach Machine.anyInput w' ∧ w'.host = S'.host by
      obtain ⟨w', hw', hhost'⟩ := h
      exact ⟨w', hw', hhost', hstep.accounts (fun i hi => hhost' ▸ hos w' hw' i hi) hacc⟩
    cases hstep with
    | @recv i m q r hup _ hq hr =>
      rw [← hhost] at hr ⊢
      have hi : i ∈ M.hosts := hM ▸ hup.1
      cases hq with
      | @recv _ t _ rest hch =>
        refine hw.recv_of_sent hi trivial hr (l := (S.inc i).handled ++ [(t, m)]) ?_ (fun j m' h => ?_)
          fun j hj => ?_
        · rw [List.map_append, hinv.handled, hhost]
          rfl
        · rw [hM]
          refine hinv.source (i := i) (m := m') ?_
          rw [hch]
          simpa [or_assoc] using Or.inl (List.mem_append.1 h)
        · rw [hhost]
          exact sent_of_recv hinv hacc hup.1 hch (hM ▸ hj)
    | run hup _ _ hr =>
      rw [← hhost] at hr ⊢
      exact hw.act_of_input (hM ▸ hup.1) trivial hr
    | task hup _ hr =>
      rw [← hhost] at hr ⊢
      exact hw.act_of_input (hM ▸ hup.1) trivial hr
    | own _ hc _ => exact ⟨w, hw, hhost.trans hc.frame.1.symm⟩
    | send _ hc _ _ => exact ⟨w, hw, hhost.trans hc.frame.1.symm⟩
    | _ => exact ⟨w, hw, hhost⟩

end Deployment

/-! ## Whom the nodes send to -/

theorem Turn.onlyVotes {E : Env D} {self : NodeID} {flagged : Bool} {c c' : Node D J}
    {x : Input (Msg D) Act} {os : List (NodeOut D)} (ht : Turn E self flagged c x c' os) :
    ∀ o ∈ os, OnlyVotes o := by
  rintro o ho k m rfl
  cases ht with
  | aside _ _ ha => exact (ha _ ho).1 k m rfl
  | shares _ ha =>
    obtain ⟨leader, -, -, h⟩ := ha _ ho
    cases h
  | elected _ _ _ _ ha =>
    obtain ⟨leader, -, -, h⟩ := ha _ ho
    cases h
  | process hs => cases hs <;> simp at ho
  | _ => simp at ho

namespace Core

variable {E : Env D} {self : NodeID} {c : Node D (SpbJob D)}

/-- **A node of the lean protocol sends to everybody or to a member**: votes go to the author of a proposal
or a `FinVoteMsg` that it has received. -/
theorem addressed {w : NodeWorld D (SpbJob D)} (hw : (machine E).Reach Machine.anyInput w) {i : NodeID}
    (hi : i ∈ E.members) : Deployment.Addressed (w.host i).outs := by
  intro k m ho
  have hl := hw.local i
  have hvotes : OnlyVotes (.to k m : NodeOut D) :=
    outs_of_steps (fun _ _ _ hr => (turns.recv _ _ _ _ hr).onlyVotes)
      (fun _ _ _ hr => (turns.act _ _ _ _ hr).onlyVotes) hl _ ho
  -- the node it goes to has signed what the vote is for
  have hauthor {m' : Msg D} (hm' : m' ∈ (w.host i).received) (hsigned : ∀ j, m'.SignedBy j → k = j) :
      k ≠ NONE := by
    obtain ⟨j, hj, o, hoj, hom⟩ := hw.sender hi hm'
    have hs := ((orderly hw).signed j hj o hoj m' (Out.msg_of_msgTo hom)).1
    rw [hsigned j hs]
    rintro rfl
    exact absurd (E.mem_members.1 hj).1 (by decide)
  have hsent := (run_sourced (Local.pool_run hl)).2.2 _ ho
  generalize ho' : (Out.to k m : NodeOut D) = o at hsent
  cases hsent with
  | other hoth =>
    subst ho'
    rcases hvotes k m rfl with ⟨v, rfl⟩ | ⟨sv, rfl⟩ <;> exact hoth.elim
  | @vote p hp =>
    cases ho'
    exact hauthor hp fun j h => h
  | @speedVote fv qc hfv _ =>
    cases ho'
    exact hauthor hfv fun j h => h
  | _ => cases ho'

end Core

theorem BigCore.Tells.not_to {E : Env D} {self k : NodeID} {m : Msg D} :
    ¬ Tells E self (.to k m : NodeOut D) := by
  intro h
  have hto := (h m rfl).1
  cases hto

theorem BigCore.public {E : Env D} {w : NodeWorld D (BigJob D)}
    (hw : (machine E).Reach Machine.anyInput w) (i : NodeID) : Deployment.Public (w.host i).outs :=
  fun _ _ ho => Tells.not_to (tells (hw.local i) _ ho)

theorem DAGBigCore.public {E : Env D} {w : NodeWorld D (BigJob D)}
    (hw : (machine E).Reach Machine.anyInput w) (i : NodeID) : Deployment.Public (w.host i).outs :=
  fun _ _ ho => BigCore.Tells.not_to (tells (hw.local i) _ ho)

namespace Deployed

/-- Four nodes of the lean protocol. -/
abbrev env : Env ℕ := Env.plain 4 fun _ => 0

/-- Node `i` with its first proposal. -/
def boot (i : NodeID) : NodeHost ℕ (SpbJob ℕ) × List (NodeOut ℕ) :=
  ((Core.machine env).input i ((Core.machine env).start i) (.act .boot)).getD
    ((Core.machine env).start i, [])

/-- Node 1 has handled the proposals of node 0 and its own, and nothing is on the way from 0 to 1. Nodes 2
and 3 could not be reached. -/
theorem settled : ∃ S, Deployment.Reach env (Core.machine env) S ∧ S.Settled 0 1 ∧
    (S.inc 1).handled.map Prod.fst = [some 0, none] := by
  have h₀ : Deployment.Reach env (Core.machine env) (Deployment.start _) := .refl
  -- node 0 proposes, and its sender writes to node 1
  have h := h₀.tail (.run (i := 0) (a := .boot) ⟨by decide, rfl⟩ rfl rfl (r := boot 0) rfl)
  have h := h.tail (.send (i := 0) ⟨by decide, rfl⟩ (.run rfl) (List.Perm.refl _) (.post _ (by decide)))
  have h := h.tail (.relay (i := 0) ⟨by decide, rfl⟩ (Or.inl rfl) (.take rfl rfl))
  have h := h.tail (.relay (i := 0) ⟨by decide, rfl⟩ (Or.inr rfl) (.pass rfl (.send _ (by decide))))
  have h := h.tail (.sender (i := 0) ⟨by decide, rfl⟩ (by simp) (by simp) (.sender (by simp) (.take rfl rfl)))
  have h := h.tail (.sender (i := 0) ⟨by decide, rfl⟩ (by simp)
    (fun _ _ _ _ hpc => by cases hpc; decide) (.sender (by simp) (.dial rfl rfl)))
  have h := h.tail (.sender (i := 0) ⟨by decide, rfl⟩ (by simp) (by simp)
    (.sender (by simp) (.undialled rfl rfl)))
  have h := h.tail (.sender (i := 0) ⟨by decide, rfl⟩ (by simp) (by simp)
    (.sender (by simp) (.undialled rfl rfl)))
  have h := h.tail (.sender (i := 0) ⟨by decide, rfl⟩ (by simp) (by simp) (.sender (by simp) (.next rfl)))
  have h := h.tail (.sender (i := 0) ⟨by decide, rfl⟩ (by simp) (by simp)
    (.sender (by simp) (.fetch (a := 1) rfl)))
  have h := h.tail (.wrote (i := 0) (a := 1) ⟨by decide, rfl⟩ rfl (.sender (by simp) (.wrote rfl)) (.write _))
  -- node 1 reads the proposal
  have h := h.tail (.read (i := 0) (j := 1) ⟨by decide, rfl⟩ (Or.inl rfl) (.decode trivial rfl))
  have h := h.tail (.read (i := 0) (j := 1) ⟨by decide, rfl⟩ (Or.inl rfl) (.decode trivial rfl))
  have h := h.tail (.arrive (i := 0) (j := 1) ⟨by decide, rfl⟩ (.hand rfl) (.arrive _ _ (by decide)))
  have h := h.tail (.forward (j := 1) ⟨by decide, rfl⟩ (Or.inl rfl) (.take rfl rfl))
  have h := h.tail (.forward (j := 1) ⟨by decide, rfl⟩ (Or.inr rfl) (.pass rfl rfl (by decide)))
  -- it makes a proposal of its own, and handles both
  have h := h.tail (.run (i := 1) (a := .boot) ⟨by decide, rfl⟩ rfl rfl (r := boot 1) rfl)
  have h := h.tail (.send (i := 1) ⟨by decide, rfl⟩ (.run rfl) (List.Perm.refl _) (.post _ (by decide)))
  have h := h.tail (.own (i := 1) ⟨by decide, rfl⟩ (.run rfl) (.own _ (by decide)))
  have h := h.tail (.recv (i := 1) ⟨by decide, rfl⟩ rfl (.recv rfl) rfl)
  have h := h.tail (.recv (i := 1) ⟨by decide, rfl⟩ rfl (.recv rfl) rfl)
  exact ⟨_, h, ⟨⟨rfl, rfl, rfl, rfl, by decide⟩, fun _ _ hc => by cases hc; rfl, rfl, rfl, rfl, rfl,
    rfl⟩, rfl⟩

end Deployed

/-- **The network refines the air**: whatever the goroutines, the channels and the connections of a
deployment do, its nodes are those of a run in which messages are simply in flight. -/
theorem deployment_refines (E : Env D) :
    (∀ S, Deployment.Reach E (Core.machine E) S →
      ∃ w, (Core.machine E).Reach Machine.anyInput w ∧ w.host = S.host) ∧
    (∀ S, Deployment.Reach E (BigCore.machine E) S →
      ∃ w, (BigCore.machine E).Reach Machine.anyInput w ∧ w.host = S.host) ∧
    ∀ S, Deployment.Reach E (DAGBigCore.machine E) S →
      ∃ w, (DAGBigCore.machine E).Reach Machine.anyInput w ∧ w.host = S.host := by
  refine ⟨fun S hS => ?_, fun S hS => ?_, fun S hS => ?_⟩
  · obtain ⟨w, hw, hhost, -⟩ := hS.refines rfl fun w hw i hi => Core.addressed hw hi
    exact ⟨w, hw, hhost⟩
  · obtain ⟨w, hw, hhost, -⟩ := hS.refines rfl fun w hw i _ => (BigCore.public hw i).addressed
    exact ⟨w, hw, hhost⟩
  · obtain ⟨w, hw, hhost, -⟩ := hS.refines rfl fun w hw i _ => (DAGBigCore.public hw i).addressed
    exact ⟨w, hw, hhost⟩

open Deployed in
theorem deployment_refines_proposals : ∃ S w, Deployment.Reach env (Core.machine env) S ∧
    (Core.machine env).Reach Machine.anyInput w ∧ w.host = S.host ∧ (w.host 1).received.length = 2 := by
  obtain ⟨S, hS, -, hhandled⟩ := settled
  obtain ⟨w, hw, hhost⟩ := (deployment_refines env).1 S hS
  refine ⟨S, w, hS, hw, hhost, ?_⟩
  have hlen := congrArg List.length hhandled
  rw [List.length_map] at hlen
  rw [hhost, ← hS.inv.handled, List.length_map, hlen]
  rfl

/-- **The messages of one node to another arrive in order**: what `j` has handled of the messages of `i` is
a stretch of what `i` has sent to `j`, with nothing missing in between, changed or repeated; it is all of it
once everything has come through. No process panics over what it reads from the network. -/
theorem link_fifo (E : Env D) (M : NodeMachine D J) (S : Deployment D J)
    (hS : Deployment.Reach E M S) :
    (∀ i j, comingFrom (some i) (S.inc j).handled <:+: Sender.sentTo j (S.out i).posted ∧
      (S.Settled i j →
        comingFrom (some i) (S.inc j).handled = Sender.sentTo j (S.out i).posted)) ∧
    (∀ j, (S.inc j).handled.map Prod.snd = (S.host j).received) ∧ ¬ S.Panics := by
  have hinv := hS.inv
  refine ⟨fun i j => ⟨?_, hinv.handled_eq⟩, hinv.handled, hinv.not_panics⟩
  have hhandled : comingFrom (some i) (S.inc j).handled <+:
      comingFrom (some i) ((S.inc j).handled ++ (S.inc j).recvCh) := by
    rw [comingFrom_append]
    exact List.prefix_append _ _
  exact hhandled.isInfix.trans (hinv.comingFrom_isInfix i j)

open Deployed in
theorem link_fifo_proposals : ∃ S, Deployment.Reach env (Core.machine env) S ∧ S.Settled 0 1 ∧
    (S.inc 1).handled.map Prod.fst = [some 0, none] ∧
    comingFrom (some 0) (S.inc 1).handled = Sender.sentTo 1 (S.out 0).posted := by
  obtain ⟨S, hS, hsettled, hhandled⟩ := settled
  exact ⟨S, hS, hsettled, hhandled, ((link_fifo env _ S hS).1 0 1).2 hsettled⟩

end S2Pac
