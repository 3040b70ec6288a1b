import Mathlib.Logic.Relation
import S2Pac.Message

/-!
# The sender

`Sender` of `network/network.go`: one goroutine takes the messages off `msgCh` and puts each of them, address
by address, on the channel of the connection; a goroutine of the connection writes what it takes off the
channel, and returns at the first error. Its channel stays in `conns`.

A channel holds `connCap` messages. When nobody takes them off any more, the next message for that address
stops `Run`, and with it what is meant for everybody else (`sender_silenced`). `sender_unaffected` says how
many messages a dead peer may be sent before that.
-/

set_option linter.unusedSectionVars false

namespace S2Pac

variable {A M : Type} [DecidableEq A]

structure NetMessage (A M : Type) where
  msg : M
  address : List A

/-- Where the goroutine of a connection is. -/
inductive Writer (M : Type) where
  /-- At the head of its loop. -/
  | ranging
  /-- In `cc.Write(msg)`. -/
  | writing (msg : M)
  /-- It has returned after an error. -/
  | returned

/-- A connection: its channel and its goroutine. -/
structure Conn (M : Type) where
  msgCh : List M
  writer : Writer M

/-- Where `Run` is. -/
inductive SenderPc (A M : Type) where
  /-- At the head of its loop. -/
  | idle
  /-- In the loop over the addresses, with those that are left. -/
  | sending (msg : M) (address : List A)

/-- The sender, with what has happened so far, oldest first. -/
structure Sender (A M : Type) where
  msgCh : List (NetMessage A M)
  conns : A → Option (Conn M)
  pc : SenderPc A M
  /-- What was handed to `Send`. -/
  sent : List (NetMessage A M)
  /-- The messages and addresses that `Run` is done with, and whether the message was put on the channel
  or no connection could be made. -/
  served : List (A × M × Bool)
  /-- What the goroutine of a connection has taken off its channel. -/
  taken : A → List M

/-- The capacity of `Sender.msgCh`. -/
def sendCap : ℕ := 1000

/-- The capacity of the channel of a connection. -/
def connCap : ℕ := 1000

/-- What makes the sender move. -/
inductive SenderMove (A M : Type) where
  | send (nm : NetMessage A M)
  | take
  | next
  | dial
  | undialled
  | hand
  | fetch (a : A)
  | wrote (a : A)
  | fail (a : A)

namespace Sender

/-- `NewSender`. -/
def new : Sender A M := ⟨[], fun _ => none, .idle, [], [], fun _ => []⟩

/-- **One step.** -/
inductive Step : SenderMove A M → Sender A M → Sender A M → Prop
  /-- `Send`. -/
  | send {s : Sender A M} (nm : NetMessage A M) : s.msgCh.length < sendCap →
      Step (.send nm) s { s with msgCh := s.msgCh ++ [nm], sent := s.sent ++ [nm] }
  /-- `Run` takes the next message. -/
  | take {s : Sender A M} {nm : NetMessage A M} {rest : List (NetMessage A M)} : s.pc = .idle →
      s.msgCh = nm :: rest → Step .take s { s with msgCh := rest, pc := .sending nm.msg nm.address }
  /-- It is through with the addresses. -/
  | next {s : Sender A M} {msg : M} : s.pc = .sending msg [] → Step .next s { s with pc := .idle }
  /-- There is no connection yet, and `connect` makes one. The channel is empty. -/
  | dial {s : Sender A M} {msg : M} {a : A} {rest : List A} : s.pc = .sending msg (a :: rest) →
      s.conns a = none → Step .dial s { s with
        conns := Function.update s.conns a (some ⟨[msg], .ranging⟩)
        pc := .sending msg rest
        served := s.served ++ [(a, msg, true)] }
  /-- There is no connection yet, and `connect` fails. -/
  | undialled {s : Sender A M} {msg : M} {a : A} {rest : List A} :
      s.pc = .sending msg (a :: rest) → s.conns a = none → Step .undialled s { s with
        pc := .sending msg rest
        served := s.served ++ [(a, msg, false)] }
  /-- `conn <- msg.Msg` goes through. -/
  | hand {s : Sender A M} {msg : M} {a : A} {rest : List A} {c : Conn M} :
      s.pc = .sending msg (a :: rest) → s.conns a = some c → c.msgCh.length < connCap →
      Step .hand s { s with
        conns := Function.update s.conns a (some { c with msgCh := c.msgCh ++ [msg] })
        pc := .sending msg rest
        served := s.served ++ [(a, msg, true)] }
  /-- The goroutine of a connection takes a message, -/
  | fetch {s : Sender A M} {a : A} {msg : M} {rest : List M} :
      s.conns a = some ⟨msg :: rest, .ranging⟩ → Step (.fetch a) s { s with
        conns := Function.update s.conns a (some ⟨rest, .writing msg⟩)
        taken := Function.update s.taken a (s.taken a ++ [msg]) }
  /-- and has written it, -/
  | wrote {s : Sender A M} {a : A} {msg : M} {q : List M} :
      s.conns a = some ⟨q, .writing msg⟩ → Step (.wrote a) s { s with
        conns := Function.update s.conns a (some ⟨q, .ranging⟩) }
  /-- or gets an error and returns. -/
  | fail {s : Sender A M} {a : A} {msg : M} {q : List M} :
      s.conns a = some ⟨q, .writing msg⟩ → Step (.fail a) s { s with
        conns := Function.update s.conns a (some ⟨q, .returned⟩) }

/-- `Run` waits: the channel of the connection to `a` is full. -/
def WaitsOn (s : Sender A M) (a : A) : Prop :=
  ∃ msg rest c, s.pc = .sending msg (a :: rest) ∧ s.conns a = some c ∧ connCap ≤ c.msgCh.length

/-! ## Books -/

/-- The messages with their addresses, in the order in which `Run` goes through them. -/
def addressed (l : List (NetMessage A M)) : List (A × M) :=
  l.flatMap fun nm => nm.address.map (·, nm.msg)

/-- What `Run` has still to do for the message that it is at, -/
def todo : SenderPc A M → List (A × M)
  | .idle => []
  | .sending msg address => address.map (·, msg)

/-- and for all messages. -/
def pending (s : Sender A M) : List (A × M) := todo s.pc ++ addressed s.msgCh

/-- What is on the channel of the connection to `a`. -/
def queue (conns : A → Option (Conn M)) (a : A) : List M := ((conns a).map Conn.msgCh).getD []

/-- What was put on the channel of the connection to `a`. -/
def putOn (a : A) (served : List (A × M × Bool)) : List M :=
  (served.filter fun x => decide (x.1 = a) && x.2.2).map fun x => x.2.1

/-- The number of messages for `a`. -/
def load (a : A) (l : List (A × M)) : ℕ := l.countP fun x => decide (x.1 = a)

/-- **Nothing is lost and nothing comes twice**: what was sent is done or still to do, and what was put on
a channel was taken off it or is still there, where there is room for it. -/
structure Books (s : Sender A M) : Prop where
  order : s.served.map (fun x => (x.1, x.2.1)) ++ s.pending = addressed s.sent
  channel : ∀ a, putOn a s.served = s.taken a ++ queue s.conns a
  cap : ∀ a, (queue s.conns a).length ≤ connCap

theorem addressed_append (l l' : List (NetMessage A M)) :
    addressed (l ++ l') = addressed l ++ addressed l' := List.flatMap_append

theorem queue_update_self (conns : A → Option (Conn M)) (a : A) (c : Conn M) :
    queue (Function.update conns a (some c)) a = c.msgCh := by
  simp [queue]

theorem queue_update_ne (conns : A → Option (Conn M)) {a a' : A} (c : Conn M) (h : a' ≠ a) :
    queue (Function.update conns a (some c)) a' = queue conns a' := by
  simp [queue, h]

theorem queue_update_writer {conns : A → Option (Conn M)} {a : A} {q : List M} {w w' : Writer M}
    (h : conns a = some ⟨q, w⟩) : queue (Function.update conns a (some ⟨q, w'⟩)) = queue conns := by
  funext a'
  by_cases ha : a' = a
  · subst ha
    rw [queue_update_self]
    simp [queue, h]
  · exact queue_update_ne _ _ ha

theorem putOn_append_self (a : A) (served : List (A × M × Bool)) (msg : M) :
    putOn a (served ++ [(a, msg, true)]) = putOn a served ++ [msg] := by
  simp [putOn]

theorem putOn_append_ne {a a' : A} (h : a' ≠ a) (served : List (A × M × Bool)) (msg : M) (ok : Bool) :
    putOn a' (served ++ [(a, msg, ok)]) = putOn a' served := by
  simp [putOn, h.symm]

theorem putOn_append_false (a a' : A) (served : List (A × M × Bool)) (msg : M) :
    putOn a' (served ++ [(a, msg, false)]) = putOn a' served := by
  simp [putOn]

theorem Books.new : (Sender.new : Sender A M).Books := ⟨rfl, fun _ => rfl, fun _ => Nat.zero_le _⟩

theorem Books.serve {s s' : Sender A M} (hb : s.Books) {msg : M} {a : A} {rest : List A} {ok : Bool}
    (hpc : s.pc = .sending msg (a :: rest)) (hpc' : s'.pc = .sending msg rest)
    (hserved : s'.served = s.served ++ [(a, msg, ok)]) (hch : s'.msgCh = s.msgCh)
    (hsent : s'.sent = s.sent) :
    s'.served.map (fun x => (x.1, x.2.1)) ++ s'.pending = addressed s'.sent := by
  have horder := hb.order
  rw [pending, hpc] at horder
  rw [pending, hpc', hserved, hch, hsent, ← horder]
  simp [todo]

theorem Books.cap_update {s : Sender A M} (hb : s.Books) {a : A} {c : Conn M}
    (hc : c.msgCh.length ≤ connCap) (a' : A) :
    (queue (Function.update s.conns a (some c)) a').length ≤ connCap := by
  by_cases ha : a' = a
  · subst ha
    rwa [queue_update_self]
  · rw [queue_update_ne _ _ ha]
    exact hb.cap a'

theorem Step.books {mv : SenderMove A M} {s s' : Sender A M} (h : Step mv s s') (hb : s.Books) :
    s'.Books := by
  cases h with
  | send nm _ =>
    refine ⟨?_, hb.channel, hb.cap⟩
    simp only [pending, addressed_append, ← hb.order, List.append_assoc]
  | take hpc hch =>
    refine ⟨?_, hb.channel, hb.cap⟩
    rw [← hb.order, pending, pending, hpc, hch]
    rfl
  | next hpc =>
    refine ⟨?_, hb.channel, hb.cap⟩
    rw [← hb.order, pending, pending, hpc]
    rfl
  | @dial _ msg a rest hpc hnone =>
    refine ⟨hb.serve hpc rfl rfl rfl rfl, fun a' => ?_, hb.cap_update (by simp [connCap])⟩
    by_cases ha : a' = a
    · subst ha
      have hq : queue s.conns a' = [] := by simp [queue, hnone]
      rw [putOn_append_self, hb.channel, hq, queue_update_self, List.append_nil]
    · rw [putOn_append_ne ha, hb.channel, queue_update_ne _ _ ha]
  | @undialled _ msg a rest hpc _ =>
    refine ⟨hb.serve hpc rfl rfl rfl rfl, fun a' => ?_, hb.cap⟩
    rw [putOn_append_false, hb.channel]
  | @hand _ msg a rest c hpc hc hroom =>
    refine ⟨hb.serve hpc rfl rfl rfl rfl, fun a' => ?_,
      hb.cap_update (by simpa using Nat.succ_le_of_lt hroom)⟩
    by_cases ha : a' = a
    · subst ha
      have hq : queue s.conns a' = c.msgCh := by simp [queue, hc]
      rw [putOn_append_self, hb.channel, hq, queue_update_self, List.append_assoc]
    · rw [putOn_append_ne ha, hb.channel, queue_update_ne _ _ ha]
  | @fetch _ a msg rest hc =>
    have hq : queue s.conns a = msg :: rest := by simp [queue, hc]
    have hlen := hb.cap a
    rw [hq, List.length_cons] at hlen
    refine ⟨hb.order, fun a' => ?_, hb.cap_update (Nat.le_of_succ_le hlen)⟩
    dsimp only
    by_cases ha : a' = a
    · subst ha
      rw [hb.channel, hq, queue_update_self, Function.update_self, List.append_assoc]
      rfl
    · rw [hb.channel, queue_update_ne _ _ ha, Function.update_of_ne ha]
  | wrote hc =>
    exact ⟨hb.order, fun a' => by rw [hb.channel, queue_update_writer hc],
      fun a' => by rw [queue_update_writer hc]; exact hb.cap a'⟩
  | fail hc =>
    exact ⟨hb.order, fun a' => by rw [hb.channel, queue_update_writer hc],
      fun a' => by rw [queue_update_writer hc]; exact hb.cap a'⟩

/-! ## Runs that spare dead peers -/

/-- The condition on a step: a message for a peer that is `dead`, or may be, is handed to `Send` only
while no more than `connCap` messages have been sent to that peer on top of those that its goroutine has
taken. -/
def Spares (dead : A → Prop) (s : Sender A M) : SenderMove A M → Prop
  | .send nm => ∀ a, dead a →
      load a (addressed (s.sent ++ [nm])) ≤ connCap + (s.taken a).length
  | _ => True

/-- The states of the runs whose steps all meet the condition. -/
abbrev Reach (dead : A → Prop) : Sender A M → Prop :=
  Relation.ReflTransGen (fun s s' => ∃ mv, Spares dead s mv ∧ Step mv s s') new

theorem Step.taken_le {mv : SenderMove A M} {s s' : Sender A M} (h : Step mv s s') (a : A) :
    (s.taken a).length ≤ (s'.taken a).length := by
  cases h with
  | @fetch _ a' msg rest hc =>
    by_cases ha : a = a'
    · subst ha
      simp
    · simp [ha]
  | _ => exact Nat.le_refl _

theorem Reach.books {dead : A → Prop} {s : Sender A M} (h : Reach dead s) : s.Books := by
  induction h with
  | refl => exact Books.new
  | tail _ hs ih =>
    obtain ⟨mv, -, hs⟩ := hs
    exact hs.books ih

theorem Reach.load_le {dead : A → Prop} {s : Sender A M} (h : Reach dead s) {a : A} (ha : dead a) :
    load a (addressed s.sent) ≤ connCap + (s.taken a).length := by
  induction h with
  | refl => exact Nat.zero_le _
  | @tail s s' _ hs ih =>
    obtain ⟨mv, hsp, hs⟩ := hs
    have htaken := hs.taken_le a
    cases hs with
    | send nm _ => exact hsp a ha
    | _ => exact Nat.le_trans ih (Nat.add_le_add_left htaken _)

theorem length_putOn_le (a : A) (served : List (A × M × Bool)) :
    (putOn a served).length ≤ load a (served.map fun x => (x.1, x.2.1)) := by
  rw [putOn, List.length_map, load, List.countP_map, ← List.countP_eq_length_filter]
  refine List.countP_mono_left fun x _ hx => ?_
  simp only [Bool.and_eq_true] at hx
  exact hx.1

/-- **There is room on the channel of a dead peer for everything that is still on its way there.** -/
theorem Reach.room {dead : A → Prop} {s : Sender A M} (h : Reach dead s) {a : A} (ha : dead a) :
    (queue s.conns a).length + load a s.pending ≤ connCap := by
  have horder := congrArg (load a) h.books.order
  have hput := length_putOn_le a s.served
  have hchannel := congrArg List.length (h.books.channel a)
  have hload := h.load_le ha
  simp only [load, List.countP_append] at horder hput hload ⊢
  rw [List.length_append] at hchannel
  omega

theorem Reach.not_waits {dead : A → Prop} {s : Sender A M} (h : Reach dead s) {a : A}
    (ha : dead a) : ¬ s.WaitsOn a := by
  rintro ⟨msg, rest, c, hpc, hc, hfull⟩
  have hroom := h.room ha
  have hq : queue s.conns a = c.msgCh := by simp [queue, hc]
  have hload : 0 < load a s.pending := by
    simp [load, pending, hpc, todo]
  rw [hq] at hroom
  omega

/-! ## What everybody else gets -/

/-- The steps of `Run` with connections that can be made, and of the goroutines of connections to peers
that are not dead and take what is written. -/
def Live (dead : A → Prop) : SenderMove A M → Prop
  | .take => True
  | .next => True
  | .dial => True
  | .hand => True
  | .fetch a => ¬ dead a
  | .wrote a => ¬ dead a
  | _ => False

abbrev LiveSteps (dead : A → Prop) : Sender A M → Sender A M → Prop :=
  Relation.ReflTransGen fun s s' => ∃ mv, Live dead mv ∧ Step mv s s'

/-- Only goroutines of connections to dead peers have returned. -/
def Alive (dead : A → Prop) (s : Sender A M) : Prop :=
  ∀ a q, s.conns a = some ⟨q, .returned⟩ → dead a

theorem LiveSteps.one {dead : A → Prop} (mv : SenderMove A M) {s s' : Sender A M} (hmv : Live dead mv)
    (h : Step mv s s') : LiveSteps dead s s' := Relation.ReflTransGen.single ⟨mv, hmv, h⟩

theorem LiveSteps.reach {dead : A → Prop} {s s' : Sender A M} (h : LiveSteps dead s s')
    (hr : Reach dead s) : Reach dead s' := by
  induction h with
  | refl => exact hr
  | tail _ hs ih =>
    obtain ⟨mv, hmv, hs⟩ := hs
    refine ih.tail ⟨mv, ?_, hs⟩
    cases mv with
    | send nm => exact hmv.elim
    | _ => trivial

theorem Alive.update {dead : A → Prop} {s : Sender A M} (hs : Alive dead s) {a : A} {c : Conn M}
    (hc : c.writer = .returned → dead a) {a' : A} {q : List M}
    (h : Function.update s.conns a (some c) a' = some ⟨q, .returned⟩) : dead a' := by
  by_cases ha : a' = a
  · subst ha
    rw [Function.update_self] at h
    exact hc (by rw [Option.some.inj h])
  · rw [Function.update_of_ne ha] at h
    exact hs a' q h

theorem LiveSteps.alive {dead : A → Prop} {s s' : Sender A M} (h : LiveSteps dead s s')
    (hs : Alive dead s) : Alive dead s' := by
  induction h with
  | refl => exact hs
  | @tail s s' _ hs ih =>
    obtain ⟨mv, hmv, hs⟩ := hs
    cases hs with
    | dial _ _ => exact fun _ _ h => ih.update (fun hc => by cases hc) h
    | @hand _ msg a rest c _ hc _ =>
      refine fun _ _ h => ih.update (fun hw => ?_) h
      obtain ⟨q, w⟩ := c
      obtain rfl : w = .returned := hw
      exact ih a q hc
    | fetch _ => exact fun _ _ h => ih.update (fun hc => by cases hc) h
    | wrote _ => exact fun _ _ h => ih.update (fun hc => by cases hc) h
    | fail _ => exact hmv.elim
    | _ => exact ih

section Progress

variable {dead : A → Prop} {s : Sender A M}

/-- A full channel to a peer that is not dead gets room. -/
theorem live_room (hr : Reach dead s) (hs : Alive dead s) {a : A} (ha : ¬ dead a) {c : Conn M}
    (hc : s.conns a = some c) (hfull : connCap ≤ c.msgCh.length) : ∃ s' c', LiveSteps dead s s' ∧
      s'.pc = s.pc ∧ s'.msgCh = s.msgCh ∧ s'.served = s.served ∧ s'.conns a = some c' ∧
      c'.msgCh.length < connCap := by
  have hcap := hr.books.cap a
  obtain ⟨q, w⟩ := c
  have hq : queue s.conns a = q := by simp [queue, hc]
  rw [hq] at hcap
  cases q with
  | nil => exact absurd hfull (by simp [connCap])
  | cons msg q =>
    have hlt : q.length < connCap := Nat.lt_of_succ_le hcap
    cases w with
    | ranging =>
      exact ⟨_, _, LiveSteps.one (.fetch a) ha (Step.fetch hc), rfl, rfl, rfl,
        Function.update_self .., hlt⟩
    | writing m =>
      -- the write that it is in ends first
      have hwrote := Step.wrote hc
      have hfetch := Step.fetch (a := a) (s := { s with
        conns := Function.update s.conns a (some ⟨msg :: q, .ranging⟩) }) (Function.update_self ..)
      exact ⟨_, _, (LiveSteps.one (.wrote a) ha hwrote).trans
        (LiveSteps.one (.fetch a) ha hfetch), rfl, rfl, rfl, Function.update_self .., hlt⟩
    | returned => exact absurd (hs a _ hc) ha

/-- `Run` gets through with an address, -/
theorem live_serve (hr : Reach dead s) (hs : Alive dead s) {msg : M} {a : A} {rest : List A}
    (hpc : s.pc = .sending msg (a :: rest)) : ∃ s', LiveSteps dead s s' ∧
      s'.pc = .sending msg rest ∧ s'.msgCh = s.msgCh ∧
      s'.served = s.served ++ [(a, msg, true)] := by
  cases hc : s.conns a with
  | none => exact ⟨_, LiveSteps.one .dial trivial (Step.dial hpc hc), rfl, rfl, rfl⟩
  | some c =>
    by_cases hroom : c.msgCh.length < connCap
    · exact ⟨_, LiveSteps.one .hand trivial (Step.hand hpc hc hroom), rfl, rfl, rfl⟩
    · have hfull : connCap ≤ c.msgCh.length := Nat.le_of_not_lt hroom
      have ha : ¬ dead a := fun ha => hr.not_waits ha ⟨msg, rest, c, hpc, hc, hfull⟩
      obtain ⟨s₁, c₁, hl, hpc₁, hch, hserved, hc₁, hroom₁⟩ := live_room hr hs ha hc hfull
      refine ⟨_, hl.trans (LiveSteps.one .hand trivial
        (Step.hand (hpc₁.trans hpc) hc₁ hroom₁)), rfl, hch, ?_⟩
      rw [hserved]

/-- with a message, -/
theorem live_message (hr : Reach dead s) (hs : Alive dead s) {msg : M} {address : List A}
    (hpc : s.pc = .sending msg address) : ∃ s', LiveSteps dead s s' ∧ s'.pc = .idle ∧
      s'.msgCh = s.msgCh ∧ s'.served = s.served ++ address.map (·, msg, true) := by
  induction address generalizing s with
  | nil => exact ⟨_, LiveSteps.one .next trivial (Step.next hpc), rfl, rfl, by simp⟩
  | cons a rest ih =>
    obtain ⟨s₁, hl, hpc₁, hch, hserved⟩ := live_serve hr hs hpc
    obtain ⟨s₂, hl₂, hpc₂, hch₂, hserved₂⟩ := ih (hl.reach hr) (hl.alive hs) hpc₁
    exact ⟨s₂, hl.trans hl₂, hpc₂, hch₂.trans hch, by rw [hserved₂, hserved]; simp⟩

/-- and with all of them. -/
theorem live_idle (hr : Reach dead s) (hs : Alive dead s) (hpc : s.pc = .idle) :
    ∃ s', LiveSteps dead s s' ∧ s'.pc = .idle ∧ s'.msgCh = [] ∧
      s'.served = s.served ++ (addressed s.msgCh).map fun x => (x.1, x.2, true) := by
  generalize hch : s.msgCh = l
  induction l generalizing s with
  | nil => exact ⟨s, Relation.ReflTransGen.refl, hpc, hch, by simp [addressed]⟩
  | cons nm rest ih =>
    have htake : LiveSteps dead s _ := LiveSteps.one .take trivial (Step.take hpc hch)
    obtain ⟨s₁, hl, hpc₁, hch₁, hserved⟩ :=
      live_message (htake.reach hr) (htake.alive hs) rfl
    have hl : LiveSteps dead s s₁ := htake.trans hl
    obtain ⟨s₂, hl₂, hpc₂, hch₂, hserved₂⟩ := ih (hl.reach hr) (hl.alive hs) hpc₁ hch₁
    exact ⟨s₂, hl.trans hl₂, hpc₂, hch₂, by rw [hserved₂, hserved]; simp [addressed]⟩

/-- **Everything that is on its way is handed over**, by `Run` and the goroutines of connections to peers
that are not dead. -/
theorem live_all (hr : Reach dead s) (hs : Alive dead s) :
    ∃ s', LiveSteps dead s s' ∧ s'.pc = .idle ∧ s'.msgCh = [] ∧
      s'.served = s.served ++ s.pending.map fun x => (x.1, x.2, true) := by
  cases hpc : s.pc with
  | idle => simpa [pending, hpc, todo] using live_idle hr hs hpc
  | sending msg address =>
    obtain ⟨s₁, hl, hpc₁, hch, hserved⟩ := live_message hr hs hpc
    obtain ⟨s₂, hl₂, hpc₂, hch₂, hserved₂⟩ := live_idle (hl.reach hr) (hl.alive hs) hpc₁
    refine ⟨s₂, hl.trans hl₂, hpc₂, hch₂, ?_⟩
    rw [hserved₂, hserved, hch]
    simp [pending, hpc, todo]

end Progress

/-! ## Dead peers -/

/-- Runs without a condition. -/
abbrev Steps : Sender A M → Sender A M → Prop :=
  Relation.ReflTransGen fun s s' => ∃ mv, Step mv s s'

theorem Steps.one {mv : SenderMove A M} {s s' : Sender A M} (h : Step mv s s') : Steps s s' :=
  Relation.ReflTransGen.single ⟨mv, h⟩

/-- `Run` waits for a goroutine that has returned. -/
def Stuck (s : Sender A M) (msg : M) (a : A) (rest : List A) : Prop :=
  s.pc = .sending msg (a :: rest) ∧ ∃ q, s.conns a = some ⟨q, .returned⟩ ∧ connCap ≤ q.length

/-- Nobody can help it, -/
theorem Step.stuck {mv : SenderMove A M} {s s' : Sender A M} (h : Step mv s s') {msg : M} {a : A}
    {rest : List A} (hs : s.Stuck msg a rest) : s'.Stuck msg a rest ∧ s'.served = s.served := by
  obtain ⟨hpc, q, hc, hfull⟩ := hs
  have hother {a' : A} {c : Conn M} (ha : s.conns a' ≠ s.conns a) :
      Function.update s.conns a' (some c) a = some ⟨q, .returned⟩ := by
    rw [Function.update_of_ne fun h => ha (congrArg s.conns h.symm), hc]
  cases h with
  | send nm _ => exact ⟨⟨hpc, q, hc, hfull⟩, rfl⟩
  | take hidle _ => exact absurd (hidle.symm.trans hpc) (by simp)
  | next hnil => exact absurd (hnil.symm.trans hpc) (by simp)
  | dial hpc' hnone =>
    cases hpc'.symm.trans hpc
    exact absurd (hnone.symm.trans hc) (by simp)
  | undialled hpc' hnone =>
    cases hpc'.symm.trans hpc
    exact absurd (hnone.symm.trans hc) (by simp)
  | hand hpc' hc' hroom =>
    cases hpc'.symm.trans hpc
    cases hc'.symm.trans hc
    exact absurd hroom (Nat.not_lt.2 hfull)
  | fetch hc' => exact ⟨⟨hpc, q, hother (by simp [hc, hc']), hfull⟩, rfl⟩
  | wrote hc' => exact ⟨⟨hpc, q, hother (by simp [hc, hc']), hfull⟩, rfl⟩
  | fail hc' => exact ⟨⟨hpc, q, hother (by simp [hc, hc']), hfull⟩, rfl⟩

/-- ever. -/
theorem Steps.stuck {s s' : Sender A M} (h : Steps s s') {msg : M} {a : A} {rest : List A}
    (hs : s.Stuck msg a rest) : s'.Stuck msg a rest ∧ s'.served = s.served := by
  induction h with
  | refl => exact ⟨hs, rfl⟩
  | tail _ hs ih =>
    obtain ⟨mv, hs⟩ := hs
    obtain ⟨hst, hserved⟩ := hs.stuck ih.1
    exact ⟨hst, hserved.trans ih.2⟩

theorem exists_sent {s : Sender A M} (hpc : s.pc = .idle) (hch : s.msgCh = []) (msg : M) {a : A}
    {q : List M} {w : Writer M} (hc : s.conns a = some ⟨q, w⟩) (hroom : q.length < connCap) :
    ∃ s', Steps s s' ∧ s'.pc = .idle ∧ s'.msgCh = [] ∧ s'.conns a = some ⟨q ++ [msg], w⟩ ∧
      s'.served = s.served ++ [(a, msg, true)] := by
  have hsend := Steps.one (Step.send (s := s) ⟨msg, [a]⟩ (by simp [hch, sendCap]))
  have htake := hsend.tail ⟨_, Step.take hpc (by rw [hch]; rfl)⟩
  have hhand := htake.tail ⟨_, Step.hand rfl hc hroom⟩
  exact ⟨_, hhand.tail ⟨_, Step.next rfl⟩, rfl, rfl, Function.update_self .., rfl⟩

/-- The first write to a peer fails, and `n` more messages for it follow. -/
theorem exists_stalled (msg : M) (a : A) {n : ℕ} (hn : n ≤ connCap) : ∃ s : Sender A M,
    Steps new s ∧ s.pc = .idle ∧ s.msgCh = [] ∧ (∀ x ∈ s.served, x.1 = a) ∧
      ∃ q, s.conns a = some ⟨q, .returned⟩ ∧ q.length = n := by
  induction n with
  | zero =>
    have hsend := Steps.one (Step.send (s := (new : Sender A M)) ⟨msg, [a]⟩ (by simp [new, sendCap]))
    have htake := hsend.tail ⟨_, Step.take rfl rfl⟩
    have hdial := htake.tail ⟨_, Step.dial rfl rfl⟩
    have hnext := hdial.tail ⟨_, Step.next rfl⟩
    have hfetch := hnext.tail ⟨_, Step.fetch (Function.update_self ..)⟩
    have hfail := hfetch.tail ⟨_, Step.fail (Function.update_self ..)⟩
    exact ⟨_, hfail, rfl, rfl, by simp [new], [], Function.update_self .., rfl⟩
  | succ n ih =>
    obtain ⟨s, hs, hpc, hch, hserved, q, hc, hlen⟩ := ih (Nat.le_of_succ_le hn)
    obtain ⟨s', hs', hpc', hch', hc', hserved'⟩ :=
      exists_sent hpc hch msg hc (hlen ▸ Nat.lt_of_succ_le hn)
    refine ⟨s', hs.trans hs', hpc', hch', fun x hx => ?_, _, hc', by simp [hlen]⟩
    rw [hserved'] at hx
    rcases List.mem_append.1 hx with hx | hx
    · exact hserved x hx
    · rw [List.mem_singleton.1 hx]

theorem exists_stuck (msg : M) (a : A) (nm : NetMessage A M) {rest : List A}
    (hnm : nm.address = a :: rest) : ∃ s : Sender A M, Steps new s ∧ s.Stuck nm.msg a rest ∧
      nm ∈ s.sent ∧ ∀ x ∈ s.served, x.1 = a := by
  obtain ⟨s, hs, hpc, hch, hserved, q, hc, hlen⟩ := exists_stalled msg a (Nat.le_refl connCap)
  have hsend := hs.tail ⟨_, Step.send (s := s) nm (by simp [hch, sendCap])⟩
  have htake := hsend.tail ⟨_, Step.take hpc (by rw [hch]; rfl)⟩
  exact ⟨_, htake, ⟨by rw [hnm], q, hc, Nat.le_of_eq hlen.symm⟩, by simp, hserved⟩

end Sender

/-- **A dead peer does not silence a node** in the runs that spare it: `Run` does not wait on its channel,
and as long as only goroutines of connections to dead peers have returned, everything that is on its way
is handed over, without any step of the goroutines of those connections. -/
theorem sender_unaffected (dead : A → Prop) (s : Sender A M) (hs : Sender.Reach dead s) :
    (∀ a, dead a → ¬ s.WaitsOn a) ∧
      (Sender.Alive dead s → ∃ s', Sender.LiveSteps dead s s' ∧ s'.pc = .idle ∧ s'.msgCh = [] ∧
        s'.served = s.served ++ s.pending.map fun x => (x.1, x.2, true)) :=
  ⟨fun _ ha => hs.not_waits ha, fun hl => Sender.live_all hs hl⟩

/-- `Transmitor.Send`, with the members of the committee for their addresses. -/
def netMessage {D : Type} (E : Env D) (sender receiver : NodeID) (msg : Msg D) :
    NetMessage NodeID (Msg D) :=
  ⟨msg, if receiver = NONE then E.members.filter fun i => decide (i ≠ sender) else [receiver]⟩

namespace Silenced

/-- The share that node 0 sends to everybody. -/
def share : NetMessage NodeID (Msg ℕ) :=
  netMessage (Env.plain 4 fun _ => 0) 0 NONE (.elect ⟨0, 0, []⟩)

theorem share_address : share.address = [1, 2, 3] := by decide

end Silenced

/-- The goroutine that writes to peer 1 has returned, and another share is sent: it gets to the peers 2
and 3. -/
theorem sender_unaffected_dead : ∃ s s' : Sender NodeID (Msg ℕ),
    Sender.Reach (· = 1) s ∧ s.conns 1 = some ⟨[], .returned⟩ ∧ s.msgCh = [Silenced.share] ∧
      ¬ s.WaitsOn 1 ∧ Sender.LiveSteps (· = 1) s s' ∧ s'.msgCh = [] ∧
      s'.served = [1, 2, 3, 1, 2, 3].map fun a => (a, Silenced.share.msg, true) := by
  have h : Sender.Reach (· = 1) (Sender.new : Sender NodeID (Msg ℕ)) := .refl
  have h := h.tail ⟨.send Silenced.share, fun a ha => by cases ha; decide, .send _ (by decide)⟩
  have h := h.tail ⟨.take, trivial, .take rfl rfl⟩
  have h := h.tail ⟨.dial, trivial, .dial rfl rfl⟩
  have h := h.tail ⟨.dial, trivial, .dial rfl rfl⟩
  have h := h.tail ⟨.dial, trivial, .dial rfl rfl⟩
  have h := h.tail ⟨.next, trivial, .next rfl⟩
  have h := h.tail ⟨.fetch 1, trivial, .fetch rfl⟩
  have h := h.tail ⟨.fail 1, trivial, .fail rfl⟩
  have h := h.tail ⟨.send Silenced.share, fun a ha => by cases ha; decide, .send _ (by decide)⟩
  obtain ⟨hwaits, hall⟩ := sender_unaffected _ _ h
  obtain ⟨s', hl, -, hch, hserved⟩ := hall fun a q hq => by
    by_contra ha
    simp only [Function.update_of_ne ha, Function.update_apply] at hq
    split_ifs at hq <;> cases hq
  exact ⟨_, s', h, rfl, rfl, hwaits 1 rfl, hl, hch, hserved⟩

/-- **One dead peer silences a node**: the first write to peer 1 fails, a thousand messages for it are
queued, and the next one is for everybody. `Run` waits for peer 1, and peer 2 does not get anything
either, ever. -/
theorem sender_silenced : ∃ s : Sender NodeID (Msg ℕ), Sender.Steps .new s ∧ s.WaitsOn 1 ∧
    (∃ q, s.conns 1 = some ⟨q, .returned⟩) ∧ Silenced.share ∈ s.sent ∧
    Silenced.share.address = [1, 2, 3] ∧
    ∀ s', Sender.Steps s s' → s'.WaitsOn 1 ∧ ∀ x ∈ s'.served, x.1 ≠ 2 := by
  obtain ⟨s, hs, hstuck, hsent, hserved⟩ :=
    Sender.exists_stuck (.vote ⟨0, 1, 0, 0, HEIGHT_1, []⟩) 1 Silenced.share Silenced.share_address
  have waits {s : Sender NodeID (Msg ℕ)} (h : s.Stuck Silenced.share.msg 1 [2, 3]) : s.WaitsOn 1 := by
    obtain ⟨hpc, q, hc, hfull⟩ := h
    exact ⟨_, _, _, hpc, hc, hfull⟩
  obtain ⟨q, hc, -⟩ := hstuck.2
  refine ⟨s, hs, waits hstuck, ⟨q, hc⟩, hsent, Silenced.share_address, fun s' hs' => ?_⟩
  obtain ⟨hstuck', hserved'⟩ := hs'.stuck hstuck
  refine ⟨waits hstuck', fun x hx => ?_⟩
  rw [hserved x (hserved' ▸ hx)]
  decide

end S2Pac
