import S2Pac.Codec
import S2Pac.Inbox
import S2Pac.Lib.Transport
import S2Pac.Sender

/-!
# The transmitor

`core/transimtor.go` with the sender and the receiver of `network/network.go` behind it. On the way out a
message goes from `Transmitor.Send` over `msgCh`, a goroutine that calls `Sender.Send`, and the sender, to
the connection of its address; on the way in from the connections over `Receiver.msg` and a second goroutine
to `recvCh`, where the node puts the messages that it sends to itself as well.

`Outgoing.Inv.taken_isInfix` and `Incoming.Order` say that both ways keep the order of the messages of one
peer: what is taken for a connection is a stretch of what was sent there, without gaps, and what the node
handles is what was read from the connection.
-/

set_option linter.unusedSectionVars false

namespace S2Pac

open Lib

variable {D : Type}

/-! ## What the sender does for one address -/

namespace Sender

variable {A M : Type} [DecidableEq A] {s s' : Sender A M} {mv : SenderMove A M}

/-- What `Run` is done with for the address `a`. -/
def servedTo (a : A) (served : List (A × M × Bool)) : List M :=
  comingFrom a (served.map fun x => (x.1, x.2.1))

/-- **Messages are missing only before the first connection**: what was put on the channel for `a` are the
last of the messages for `a`. -/
structure Late (s : Sender A M) (a : A) : Prop where
  last : putOn a s.served <:+ servedTo a s.served
  undialled : s.conns a = none → putOn a s.served = []

theorem Late.new (a : A) : (Sender.new : Sender A M).Late a := ⟨List.suffix_refl _, fun _ => rfl⟩

theorem servedTo_append_self (a : A) (served : List (A × M × Bool)) (msg : M) (ok : Bool) :
    servedTo a (served ++ [(a, msg, ok)]) = servedTo a served ++ [msg] := by
  simp [servedTo]

theorem servedTo_append_ne {a a' : A} (h : a' ≠ a) (served : List (A × M × Bool)) (msg : M) (ok : Bool) :
    servedTo a' (served ++ [(a, msg, ok)]) = servedTo a' served := by
  simp only [servedTo, List.map_append, List.map_cons, List.map_nil, comingFrom_append]
  rw [comingFrom_cons_ne h.symm, comingFrom_nil, List.append_nil]

theorem Late.put {a a' : A} (h : s.Late a') {msg : M}
    (hserved : s'.served = s.served ++ [(a, msg, true)]) (hconn : s'.conns a ≠ none)
    (hother : a' ≠ a → s'.conns a' = s.conns a') : s'.Late a' := by
  by_cases ha : a' = a
  · subst ha
    refine ⟨?_, fun hnone => absurd hnone hconn⟩
    rw [hserved, putOn_append_self, servedTo_append_self]
    obtain ⟨lost, hlost⟩ := h.last
    exact ⟨lost, by rw [← List.append_assoc, hlost]⟩
  · refine ⟨?_, fun hnone => ?_⟩
    · rw [hserved, putOn_append_ne ha, servedTo_append_ne ha]
      exact h.last
    · rw [hserved, putOn_append_ne ha]
      exact h.undialled (hother ha ▸ hnone)

theorem none_of_update {conns : A → Option (Conn M)} {a a' : A} {c : Conn M}
    (h : Function.update conns a' (some c) a = none) : conns a = none := by
  by_cases ha : a = a'
  · subst ha
    simp at h
  · rwa [Function.update_of_ne ha] at h

theorem Step.late (h : Step mv s s') {a : A} (hs : s.Late a) : s'.Late a := by
  cases h with
  | send _ _ => exact ⟨hs.last, hs.undialled⟩
  | take _ _ => exact ⟨hs.last, hs.undialled⟩
  | next _ => exact ⟨hs.last, hs.undialled⟩
  | @dial _ msg a' rest _ _ =>
    exact hs.put rfl (by simp) fun ha => Function.update_of_ne ha ..
  | @undialled _ msg a' rest _ hnone =>
    by_cases ha : a = a'
    · -- nothing has been put on the channel yet, and the message is one more that is missing
      subst ha
      have hput : putOn a (s.served ++ [(a, msg, false)]) = [] := by
        rw [putOn_append_false, hs.undialled hnone]
      exact ⟨hput ▸ List.nil_suffix, fun _ => hput⟩
    · refine ⟨?_, fun h => ?_⟩
      · rw [putOn_append_false, servedTo_append_ne ha]
        exact hs.last
      · rw [putOn_append_false]
        exact hs.undialled h
  | @hand _ msg a' rest c _ _ _ =>
    exact hs.put rfl (by simp) fun ha => Function.update_of_ne ha ..
  | fetch _ => exact ⟨hs.last, fun h => hs.undialled (none_of_update h)⟩
  | wrote _ => exact ⟨hs.last, fun h => hs.undialled (none_of_update h)⟩
  | fail _ => exact ⟨hs.last, fun h => hs.undialled (none_of_update h)⟩

theorem Step.sent_eq (h : Step mv s s') (hmv : ∀ nm, mv ≠ .send nm) : s'.sent = s.sent := by
  cases h with
  | send nm _ => exact absurd rfl (hmv nm)
  | _ => rfl

/-- What was sent to `a`. -/
def sentTo (a : A) (l : List (NetMessage A M)) : List M := comingFrom a (addressed l)

@[simp] theorem sentTo_nil (a : A) : sentTo a ([] : List (NetMessage A M)) = [] := rfl

theorem sentTo_append (a : A) (l l' : List (NetMessage A M)) :
    sentTo a (l ++ l') = sentTo a l ++ sentTo a l' := by
  rw [sentTo, addressed_append, comingFrom_append]
  rfl

theorem Books.sentTo_eq (hb : s.Books) (a : A) :
    servedTo a s.served ++ comingFrom a s.pending = sentTo a s.sent := by
  rw [sentTo, ← hb.order, comingFrom_append]
  rfl

/-- **What is taken for a connection is a stretch of what was sent to its address.** -/
theorem Books.taken_isInfix (hb : s.Books) {a : A} (hl : s.Late a) : s.taken a <:+: sentTo a s.sent := by
  have htaken : s.taken a <+: putOn a s.served := ⟨_, (hb.channel a).symm⟩
  have hserved : servedTo a s.served <+: sentTo a s.sent := ⟨_, hb.sentTo_eq a⟩
  exact htaken.isInfix.trans (hl.last.isInfix.trans hserved.isInfix)

/-- Nothing is missing when every connection to `a` could be made and `Run` has nothing left to do. -/
theorem Books.taken_eq (hb : s.Books) {a : A} (hdial : ∀ x ∈ s.served, x.1 = a → x.2.2 = true)
    (hpending : s.pending = []) (hqueue : queue s.conns a = []) : s.taken a = sentTo a s.sent := by
  have hput : putOn a s.served = servedTo a s.served := by
    unfold putOn servedTo
    generalize s.served = served at hdial
    induction served with
    | nil => rfl
    | cons x served ih =>
      obtain ⟨a', msg, ok⟩ := x
      have ih := ih fun x hx => hdial x (List.mem_cons_of_mem _ hx)
      by_cases ha : a' = a
      · subst ha
        obtain rfl : ok = true := hdial _ List.mem_cons_self rfl
        simpa using ih
      · simp only [List.map_cons, comingFrom_cons_ne ha]
        simpa [ha] using ih
  rw [← hb.sentTo_eq, hpending, comingFrom_nil, List.append_nil, ← hput, hb.channel, hqueue,
    List.append_nil]

end Sender

/-! ## On the way out -/

/-- The capacity of `Transmitor.msgCh`. -/
def transmitCap : ℕ := 1000

/-- The half of a transmitor that sends, with its sender. -/
structure Outgoing (D : Type) where
  msgCh : List (NetMessage NodeID (Msg D))
  /-- What the goroutine between `msgCh` and the sender has in hand. -/
  relay : Option (NetMessage NodeID (Msg D))
  sender : Sender NodeID (Msg D)
  /-- What was put on `msgCh`, oldest first. -/
  posted : List (NetMessage NodeID (Msg D))

inductive OutMove (D : Type) where
  | post (nm : NetMessage NodeID (Msg D))
  | take
  | pass
  | sender (mv : SenderMove NodeID (Msg D))

namespace Outgoing

variable {o o' : Outgoing D} {mv : OutMove D}

def new : Outgoing D := ⟨[], none, .new, []⟩

/-- **One step.** -/
inductive Step : OutMove D → Outgoing D → Outgoing D → Prop
  /-- `tr.msgCh <- nm` of `Send`. -/
  | post {o : Outgoing D} (nm : NetMessage NodeID (Msg D)) : o.msgCh.length < transmitCap →
      Step (.post nm) o { o with msgCh := o.msgCh ++ [nm], posted := o.posted ++ [nm] }
  /-- The goroutine takes a message, -/
  | take {o : Outgoing D} {nm : NetMessage NodeID (Msg D)} {rest : List (NetMessage NodeID (Msg D))} :
      o.relay = none → o.msgCh = nm :: rest → Step .take o { o with msgCh := rest, relay := some nm }
  /-- and hands it to the sender. -/
  | pass {o : Outgoing D} {nm : NetMessage NodeID (Msg D)} {s : Sender NodeID (Msg D)} :
      o.relay = some nm → Sender.Step (.send nm) o.sender s →
      Step .pass o { o with relay := none, sender := s }
  /-- The sender does something else. -/
  | sender {o : Outgoing D} {mv : SenderMove NodeID (Msg D)} {s : Sender NodeID (Msg D)} :
      (∀ nm, mv ≠ .send nm) → Sender.Step mv o.sender s →
      Step (.sender mv) o { o with sender := s }

structure Inv (o : Outgoing D) : Prop where
  books : o.sender.Books
  late : ∀ a, o.sender.Late a
  order : o.sender.sent ++ o.relay.toList ++ o.msgCh = o.posted

theorem Inv.new : (new : Outgoing D).Inv := ⟨Sender.Books.new, Sender.Late.new, rfl⟩

theorem Step.inv (h : Step mv o o') (ho : o.Inv) : o'.Inv := by
  cases h with
  | post nm _ =>
    refine ⟨ho.books, ho.late, ?_⟩
    rw [← ho.order]
    simp only [List.append_assoc]
  | take hrelay hch =>
    refine ⟨ho.books, ho.late, ?_⟩
    rw [← ho.order, hrelay, hch]
    simp
  | @pass _ nm s hrelay hs =>
    refine ⟨hs.books ho.books, fun a => hs.late (ho.late a), ?_⟩
    rw [← ho.order, hrelay]
    cases hs
    simp
  | sender hmv hs =>
    refine ⟨hs.books ho.books, fun a => hs.late (ho.late a), ?_⟩
    rw [← ho.order, ← hs.sent_eq hmv]

/-- **What is taken for a connection is a stretch of what the node has sent to the peer.** -/
theorem Inv.taken_isInfix (ho : o.Inv) (a : NodeID) : o.sender.taken a <:+: Sender.sentTo a o.posted := by
  have hsent : Sender.sentTo a o.sender.sent <+: Sender.sentTo a o.posted := by
    rw [← ho.order, List.append_assoc, Sender.sentTo_append]
    exact List.prefix_append _ _
  exact (ho.books.taken_isInfix (ho.late a)).trans hsent.isInfix

/-- Nothing for `a` is on the way to its connection, and every connection to it could be made. -/
structure Through (o : Outgoing D) (a : NodeID) : Prop where
  msgCh : o.msgCh = []
  relay : o.relay = none
  pending : o.sender.pending = []
  queue : Sender.queue o.sender.conns a = []
  dialled : ∀ x ∈ o.sender.served, x.1 = a → x.2.2 = true

theorem Inv.taken_eq (ho : o.Inv) {a : NodeID} (h : o.Through a) :
    o.sender.taken a = Sender.sentTo a o.posted := by
  rw [ho.books.taken_eq h.dialled h.pending h.queue, ← ho.order, h.relay, h.msgCh]
  simp

end Outgoing

/-! ## Connections -/

/-- The values of the message that a goroutine is at which are not written: all of them while it is in
`cc.Write`, and any number once it has returned. -/
def Owes : Option (Conn (Msg D)) → List (Value D) → Prop
  | some ⟨_, .writing msg⟩, vs => vs = Codec.write msg.wire
  | some ⟨_, .returned⟩, _ => True
  | _, vs => vs = []

/-- **The link to `a` carries what was taken for the connection.** -/
def Sender.Carries (s : Sender NodeID (Msg D)) (a : NodeID) (l : Link D) : Prop :=
  ∃ rest, Owes (s.conns a) rest ∧ l.Flow ((s.taken a).map Msg.wire) rest

namespace Sender

variable {s s' : Sender NodeID (Msg D)} {mv : SenderMove NodeID (Msg D)} {l l' : Link D}

theorem Carries.new (a : NodeID) : (Sender.new : Sender NodeID (Msg D)).Carries a .new :=
  ⟨[], rfl, Link.Flow.new⟩

theorem Carries.of_eq {a : NodeID} (h : s.Carries a l) (hconns : s'.conns a = s.conns a)
    (htaken : s'.taken a = s.taken a) : s'.Carries a l := by
  obtain ⟨rest, hrest, hflow⟩ := h
  exact ⟨rest, hconns ▸ hrest, htaken ▸ hflow⟩

/-- The steps of the sender that write nothing, -/
theorem Step.carries (hs : Step mv s s') (hmv : ∀ a, mv ≠ .wrote a ∧ mv ≠ .fail a) {a : NodeID}
    (h : s.Carries a l) : s'.Carries a l := by
  cases hs with
  | send _ _ => exact h.of_eq rfl rfl
  | take _ _ => exact h.of_eq rfl rfl
  | next _ => exact h.of_eq rfl rfl
  | @dial _ msg a' rest _ hnone =>
    by_cases ha : a = a'
    · subst ha
      obtain ⟨vs, hvs, hflow⟩ := h
      rw [hnone] at hvs
      obtain rfl : vs = [] := hvs
      exact ⟨[], by simp [Owes], hflow⟩
    · exact h.of_eq (Function.update_of_ne ha ..) rfl
  | undialled _ _ => exact h.of_eq rfl rfl
  | @hand _ msg a' rest c _ hc _ =>
    by_cases ha : a = a'
    · subst ha
      obtain ⟨vs, hvs, hflow⟩ := h
      obtain ⟨q, w⟩ := c
      rw [hc] at hvs
      refine ⟨vs, ?_, hflow⟩
      simp only [Function.update_self]
      cases w <;> exact hvs
    · exact h.of_eq (Function.update_of_ne ha ..) rfl
  | @fetch _ a' msg rest hc =>
    by_cases ha : a = a'
    · subst ha
      obtain ⟨vs, hvs, hflow⟩ := h
      rw [hc] at hvs
      obtain rfl : vs = [] := hvs
      refine ⟨Codec.write msg.wire, by simp [Owes], ?_⟩
      simpa using hflow.fetch msg.wire
    · exact h.of_eq (Function.update_of_ne ha ..) (Function.update_of_ne ha ..)
  | wrote _ => exact absurd rfl (hmv _).1
  | fail _ => exact absurd rfl (hmv _).2

/-- and those that write, on the other links and on the one that is written to. -/
theorem Step.carries_ne {a a' : NodeID} (hs : Step mv s s') (hmv : mv = .wrote a' ∨ mv = .fail a')
    (ha : a ≠ a') (h : s.Carries a l) : s'.Carries a l := by
  rcases hmv with rfl | rfl
  · cases hs
    exact h.of_eq (Function.update_of_ne ha ..) rfl
  · cases hs
    exact h.of_eq (Function.update_of_ne ha ..) rfl

theorem Step.carries_wrote {a : NodeID} {q : List (Msg D)} {msg : Msg D} (hs : Step (.wrote a) s s')
    (hc : s.conns a = some ⟨q, .writing msg⟩) (hl : Link.Step (.write (Codec.write msg.wire)) l l')
    (h : s.Carries a l) : s'.Carries a l' := by
  obtain ⟨vs, hvs, hflow⟩ := h
  rw [hc] at hvs
  obtain rfl : vs = Codec.write msg.wire := hvs
  cases hs
  exact ⟨[], by simp [Owes], Link.Flow.write hl (by simpa using hflow)⟩

theorem Step.carries_fail {a : NodeID} {q : List (Msg D)} {msg : Msg D} {vs : List (Value D)}
    (hs : Step (.fail a) s s') (hc : s.conns a = some ⟨q, .writing msg⟩)
    (hvs : vs <+: Codec.write msg.wire) (hl : Link.Step (.write vs) l l') (h : s.Carries a l) :
    s'.Carries a l' := by
  obtain ⟨vs', hvs', hflow⟩ := h
  rw [hc] at hvs'
  obtain rfl : vs' = Codec.write msg.wire := hvs'
  obtain ⟨rest, hrest⟩ := hvs
  cases hs
  exact ⟨rest, by simp [Owes], Link.Flow.write hl (hrest.symm ▸ hflow)⟩

end Sender

theorem Sender.Carries.read {s : Sender NodeID (Msg D)} {a : NodeID} {l l' : Link D} {mv : LinkMove D}
    (h : s.Carries a l) (hl : Link.Step mv l l') (hmv : ∀ vs, mv ≠ .write vs) : s.Carries a l' := by
  obtain ⟨rest, hrest, hflow⟩ := h
  refine ⟨rest, hrest, ?_⟩
  cases mv with
  | write vs => exact absurd rfl (hmv vs)
  | decode => exact (hflow.decode hl).1
  | broken => exact hflow.broken hl
  | hand w => exact hflow.hand hl

/-! ## On the way in -/

/-- The capacity of `Receiver.msg`. -/
def receiverCap : ℕ := 1000

/-- The half of a transmitor that receives, with its receiver. A message is listed with the peer it comes
from, which the code does not keep; `none` on `recvCh` stands for the node itself. -/
structure Incoming (D : Type) where
  msg : List (NodeID × Wire D)
  /-- What the goroutine between the receiver and `recvCh` has in hand. -/
  relay : Option (NodeID × Wire D)
  recvCh : List (Option NodeID × Msg D)
  /-- What the node has put on `recvCh`, oldest first. -/
  own : List (Msg D)
  /-- What `Run` has taken off `recvCh`, oldest first. -/
  handled : List (Option NodeID × Msg D)

inductive InMove (D : Type) where
  | arrive (i : NodeID) (w : Wire D)
  | take
  | pass
  | own (m : Msg D)
  | recv (m : Msg D)

namespace Incoming

variable {q q' : Incoming D} {mv : InMove D}

def new : Incoming D := ⟨[], none, [], [], []⟩

/-- **One step.** -/
inductive Step : InMove D → Incoming D → Incoming D → Prop
  /-- `recv.msg <- msg` of the goroutine that reads from `i`. -/
  | arrive {q : Incoming D} (i : NodeID) (w : Wire D) : q.msg.length < receiverCap →
      Step (.arrive i w) q { q with msg := q.msg ++ [(i, w)] }
  /-- The goroutine takes a value, -/
  | take {q : Incoming D} {x : NodeID × Wire D} {rest : List (NodeID × Wire D)} : q.relay = none →
      q.msg = x :: rest → Step .take q { q with msg := rest, relay := some x }
  /-- and puts it on `recvCh`. -/
  | pass {q : Incoming D} {i : NodeID} {w : Wire D} {m : Msg D} : q.relay = some (i, w) →
      w.msg = some m → q.recvCh.length < inboxCap →
      Step .pass q { q with relay := none, recvCh := q.recvCh ++ [(some i, m)] }
  /-- The node sends a message to itself. -/
  | own {q : Incoming D} (m : Msg D) : q.recvCh.length < inboxCap →
      Step (.own m) q { q with recvCh := q.recvCh ++ [(none, m)], own := q.own ++ [m] }
  /-- `Run` takes a message. -/
  | recv {q : Incoming D} {t : Option NodeID} {m : Msg D} {rest : List (Option NodeID × Msg D)} :
      q.recvCh = (t, m) :: rest →
      Step (.recv m) q { q with recvCh := rest, handled := q.handled ++ [(t, m)] }

/-- **The messages of every peer, and those of the node itself, stay in order**: `arrived i` is what was
read from the connection of `i`. -/
structure Order (q : Incoming D) (arrived : NodeID → List (Wire D)) : Prop where
  own : comingFrom none (q.handled ++ q.recvCh) = q.own
  peer : ∀ i, (comingFrom (some i) (q.handled ++ q.recvCh)).map Msg.wire ++
    comingFrom i (q.relay.toList ++ q.msg) = arrived i

theorem Order.new : (new : Incoming D).Order fun _ => [] := ⟨rfl, fun _ => rfl⟩

end Incoming

theorem Wire.wire_of_msg {w : Wire D} {m : Msg D} (h : w.msg = some m) : m.wire = w := by
  cases w with
  | propose p =>
    obtain ⟨b, hb, rfl⟩ := Option.map_eq_some_iff.1 h
    obtain ⟨author, b', view, height, docG, signature⟩ := p
    obtain rfl : b' = some b := hb
    rfl
  | docGQC d => cases h
  | _ =>
    cases h
    rfl

namespace Incoming

variable {q q' : Incoming D} {mv : InMove D} {arrived : NodeID → List (Wire D)}

theorem Step.order_arrive {i : NodeID} {w : Wire D} (h : Step (.arrive i w) q q')
    (hq : q.Order arrived) : q'.Order (Function.update arrived i (arrived i ++ [w])) := by
  cases h
  refine ⟨hq.own, fun j => ?_⟩
  have hpeer := hq.peer j
  by_cases hj : j = i
  · subst hj
    rw [Function.update_self, ← hpeer]
    simp
  · rw [Function.update_of_ne hj, ← hpeer]
    simp [comingFrom_cons_ne (Ne.symm hj)]

theorem Step.order (h : Step mv q q') (hmv : ∀ i w, mv ≠ .arrive i w) (hq : q.Order arrived) :
    q'.Order arrived := by
  cases h with
  | arrive i w _ => exact absurd rfl (hmv i w)
  | take hrelay hch =>
    refine ⟨hq.own, fun i => ?_⟩
    rw [← hq.peer, hrelay, hch]
    simp
  | @pass _ i w m hrelay hm _ =>
    refine ⟨?_, fun j => ?_⟩
    · rw [← List.append_assoc, comingFrom_append, comingFrom_cons_ne (by simp), comingFrom_nil,
        List.append_nil, hq.own]
    · rw [← hq.peer, hrelay, ← List.append_assoc, comingFrom_append]
      by_cases hj : i = j
      · subst hj
        simp [Wire.wire_of_msg hm]
      · have hsome : (some i : Option NodeID) ≠ some j := fun h => hj (Option.some.inj h)
        simp only [comingFrom_append, comingFrom_cons_ne hsome, comingFrom_nil, Option.toList_some,
          Option.toList_none, comingFrom_cons_ne hj, List.append_nil]
  | own m _ =>
    refine ⟨?_, fun j => ?_⟩
    · rw [← List.append_assoc, comingFrom_append, hq.own]
      simp
    · rw [← hq.peer, ← List.append_assoc, comingFrom_append, comingFrom_cons_ne (by simp)]
      simp
  | recv hch =>
    refine ⟨?_, fun j => ?_⟩
    · rw [← hq.own, hch]
      simp
    · rw [← hq.peer, hch]
      simp

/-- **What `Run` has handled from a peer are the first of the messages that were read from it.** -/
theorem Order.handled_isPrefix (hq : q.Order arrived) (i : NodeID) :
    (comingFrom (some i) (q.handled ++ q.recvCh)).map Msg.wire <+: arrived i := ⟨_, hq.peer i⟩

end Incoming

end S2Pac
