import S2Pac.Core.Rounds

/-!
# The inbox of a node

`recvCh` of `core/transimtor.go`, around a node of the lean protocol. The channel holds `inboxCap` messages.
The network goroutine fills it, and so do the goroutines of the instances and `Run`, with what the node
sends to itself; `Run` alone takes messages off it. When it is full and `Run` has a message for itself, `Run`
waits for ever (`inbox_deadlock`). While the others leave one place free this does not happen
(`inbox_progress`).
-/

set_option linter.unusedSectionVars false

namespace S2Pac

open Lib

variable {D : Type} [DecidableEq D]

/-- The capacity of `recvCh`. -/
def inboxCap : ℕ := 1000

/-- A node with its inbox. -/
structure Loop (D : Type) where
  node : Node D (SpbJob D)
  recvCh : List (Msg D)
  /-- What `Run` has still to put on the channel before it goes on. -/
  sending : List (Msg D)
  /-- The goroutines that `Run` starts after that. -/
  held : List (Key × SpbJob D)
  /-- What the goroutines of the instances have to put on the channel. -/
  waiting : List (Msg D)

namespace Loop

variable (E : Env D) (me : NodeID)

/-- The messages of a node to itself. -/
def own (os : List (NodeOut D)) : List (Msg D) := os.filterMap (Out.msgTo me me)

/-- Before the first step. -/
def start : Loop D := ⟨Node.new E, [], [], [], []⟩

/-- `Run` has taken a step with the result `r`. What it sends to itself comes before the goroutines that
it starts. -/
def ran (s : Loop D) (r : Moved D (SpbJob D)) : Loop D :=
  if own me r.2 = [] then { s with node := r.1 }
  else { s with
    node := { r.1 with tasks := s.node.tasks }
    sending := own me r.2
    held := r.1.tasks.drop s.node.tasks.length }

/-- **One step.** The others put a message on the channel while it holds fewer than `room`; the code has
`room = inboxCap`. -/
inductive Step (room : ℕ) : Loop D → Loop D → Prop
  /-- The network goroutine puts a message on the channel. -/
  | arrive {s : Loop D} (m : Msg D) : s.recvCh.length < room →
      Step room s { s with recvCh := s.recvCh ++ [m] }
  /-- A goroutine of an instance does. -/
  | enqueue {s : Loop D} {i : ℕ} {m : Msg D} : s.waiting[i]? = some m → s.recvCh.length < room →
      Step room s { s with recvCh := s.recvCh ++ [m], waiting := s.waiting.eraseIdx i }
  /-- `Run` does, and goes on when it has no more messages for itself. -/
  | push {s : Loop D} {m : Msg D} {rest : List (Msg D)} : s.sending = m :: rest →
      s.recvCh.length < inboxCap →
      Step room s { s with
        node := if rest = [] then { s.node with tasks := s.node.tasks ++ s.held } else s.node
        recvCh := s.recvCh ++ [m]
        sending := rest
        held := if rest = [] then [] else s.held }
  /-- `Run` takes a message and handles it. -/
  | recv {s : Loop D} {m : Msg D} {rest : List (Msg D)} {r : Moved D (SpbJob D)} : s.sending = [] →
      s.recvCh = m :: rest → Core.recv E me s.node m = some r →
      Step room s ({ s with recvCh := rest }.ran me r)
  /-- `Run` is entered, or goes on inside a handler. -/
  | run {s : Loop D} {a : Act} {r : Moved D (SpbJob D)} : s.sending = [] → a = .boot ∨ a = .main →
      Core.act E me s.node a = some r → Step room s (s.ran me r)
  /-- A goroutine of an instance takes a step. -/
  | task {s : Loop D} {i : ℕ} {r : Moved D (SpbJob D)} : Core.act E me s.node (.task i) = some r →
      Step room s { s with node := r.1, waiting := s.waiting ++ own me r.2 }
  /-- The commitor or the pool take a step. -/
  | other {s : Loop D} {a : Act} {r : Moved D (SpbJob D)} : a = .commitor ∨ (∃ txs, a = .makeBatch txs) →
      Core.act E me s.node a = some r → Step room s { s with node := r.1 }

abbrev Steps (room : ℕ) : Loop D → Loop D → Prop := Relation.ReflTransGen (Step E me room)

/-- The states that can be reached. -/
abbrev Reach (room : ℕ) (s : Loop D) : Prop := Steps E me room (start E) s

/-- `Run` waits to put a message on the full channel. -/
def Waits (s : Loop D) : Prop := s.sending ≠ [] ∧ inboxCap ≤ s.recvCh.length

/-- The code has every step of a run in which the others leave more room. -/
theorem Step.widen {room room' : ℕ} (hroom : room ≤ room') {s s' : Loop D}
    (h : Step E me room s s') : Step E me room' s s' := by
  cases h with
  | arrive m hlt => exact Step.arrive m (lt_of_lt_of_le hlt hroom)
  | enqueue hi hlt => exact Step.enqueue hi (lt_of_lt_of_le hlt hroom)
  | push hs hlt => exact Step.push hs hlt
  | recv hs hch hr => exact Step.recv hs hch hr
  | run hs ha hr => exact Step.run hs ha hr
  | task hr => exact Step.task hr
  | other ha hr => exact Step.other ha hr

variable {E me}

/-! ## What `Run` sends to itself -/

/-- A step of `Run` that has at most one message for itself, with which it is at the head of its loop
again. -/
structure Sends (me : NodeID) (r : Moved D (SpbJob D)) : Prop where
  booted : r.1.booted = true
  one : (own me r.2).length ≤ 1
  idle : own me r.2 ≠ [] → r.1.pc = .idle

theorem Sends.quiet {c : Node D (SpbJob D)} {os : List (NodeOut D)} (hb : c.booted = true)
    (hos : own me os = []) : Sends me (c, os) :=
  ⟨hb, by simp [hos], fun h => absurd hos h⟩

theorem Sends.bcast {r : Moved D (SpbJob D)} (hb : r.1.booted = true) (hpc : r.1.pc = .idle) {m : Msg D}
    (hos : r.2 = [.bcast m]) : Sends me r :=
  ⟨hb, by simp [hos, own, Out.msgTo], fun _ => hpc⟩

variable {P : Goroutines D (SpbJob D)} {c c' : Node D (SpbJob D)} {os : List (NodeOut D)}

theorem sends_handling {m : Msg D} (h : Handling E me .lean P c m c' os) (hb : c.booted = true)
    (hpc : c.pc = .idle) : Sends me (c', os) := by
  cases h with
  | finVote _ _ =>
    split
    · exact Sends.bcast hb hpc rfl
    · exact Sends.quiet hb rfl
  | counted hV _ => exact absurd rfl hV
  -- the coin goes to the others only
  | tossed _ _ _ _ | elected _ _ _ => exact Sends.quiet hb (by simp [own, Variant.announce, Out.msgTo])
  | advance _ _ _ _ => exact Sends.bcast hb hpc rfl
  | enter hV _ _ => cases hV
  | _ => exact Sends.quiet hb rfl

theorem sends_boot (h : Acting E me .lean P c .boot c' os) :
    c.booted = false ∧ (c.pc = .idle → Sends me (c', os)) := by
  cases h with
  | boot hb _ => exact ⟨hb, fun hpc => Sends.bcast rfl hpc rfl⟩

theorem sends_main (h : Acting E me .lean P c .main c' os) :
    c.pc ≠ .idle ∧ (c.booted = true → Sends me (c', os)) := by
  cases h with
  | coin hc =>
    cases hc with
    | _ hpc => exact ⟨by simp [hpc], fun hb => Sends.quiet hb rfl⟩
  | report _ hpc => exact ⟨by simp [hpc], fun hb => Sends.bcast hb rfl rfl⟩
  | leave hV _ | ask hV _ _ | propose hV _ _ _ | few hV _ _ _ => cases hV

/-! ## Runs in which the others leave a place free -/

/-- **What holds in every state**: `Run` has at most one message for itself, and while it has one, or may
come to have one before it takes the next message, there is a free place on the channel. -/
structure Inv (s : Loop D) : Prop where
  one : s.sending.length ≤ 1
  idle : s.sending ≠ [] → s.node.pc = .idle ∧ s.node.booted = true
  boot : s.node.booted = false → s.node.pc = .idle
  cap : s.recvCh.length ≤ inboxCap
  free : s.node.booted = false ∨ s.node.pc ≠ .idle ∨ s.sending ≠ [] → s.recvCh.length < inboxCap

theorem Inv.start : (start E).Inv :=
  ⟨Nat.zero_le _, fun h => absurd rfl h, fun _ => rfl, Nat.zero_le _,
    fun _ => by simp [Loop.start, inboxCap]⟩

theorem Inv.put {s : Loop D} (hs : s.Inv) (hroom : s.recvCh.length < inboxCap - 1) (m : Msg D)
    (waiting : List (Msg D)) : { s with recvCh := s.recvCh ++ [m], waiting := waiting }.Inv := by
  have hlen : (s.recvCh ++ [m]).length < inboxCap := by
    rw [List.length_append, List.length_singleton]
    omega
  exact ⟨hs.one, hs.idle, hs.boot, hlen.le, fun _ => hlen⟩

theorem Inv.ran {s : Loop D} (hsend : s.sending = []) (hroom : s.recvCh.length < inboxCap)
    {r : Moved D (SpbJob D)} (hr : Sends me r) : (s.ran me r).Inv := by
  unfold Loop.ran
  split
  · exact ⟨by simp [hsend], fun h => absurd hsend h,
      fun h => absurd (hr.booted.symm.trans h) (by decide), hroom.le, fun _ => hroom⟩
  · next hown =>
    exact ⟨hr.one, fun _ => ⟨hr.idle hown, hr.booted⟩,
      fun h => absurd (hr.booted.symm.trans h) (by decide), hroom.le, fun _ => hroom⟩

theorem Inv.same {s : Loop D} (hs : s.Inv) {c : Node D (SpbJob D)} (hpc : c.pc = s.node.pc)
    (hb : c.booted = s.node.booted) (waiting : List (Msg D)) :
    { s with node := c, waiting := waiting }.Inv := by
  refine ⟨hs.one, fun h => ?_, fun h => ?_, hs.cap, fun h => hs.free ?_⟩
  · rw [hpc, hb]
    exact hs.idle h
  · rw [hpc]
    exact hs.boot (hb.symm.trans h)
  · rwa [← hpc, ← hb]

theorem Step.inv {s s' : Loop D} (h : Step E me (inboxCap - 1) s s') (hs : s.Inv) : s'.Inv := by
  cases h with
  | arrive m hroom => exact hs.put hroom m _
  | enqueue _ hroom => exact hs.put hroom _ _
  | @push m rest hsend hroom =>
    have hne : s.sending ≠ [] := by simp [hsend]
    obtain ⟨hpc, hb⟩ := hs.idle hne
    obtain rfl : rest = [] := by
      have hone := hs.one
      rw [hsend, List.length_cons] at hone
      exact List.length_eq_zero_iff.1 (by omega)
    refine ⟨Nat.zero_le _, fun h => absurd rfl h, fun _ => hpc, ?_, ?_⟩
    · rw [List.length_append, List.length_singleton]
      exact hroom
    · rintro (h | h | h)
      · exact absurd (hb.symm.trans h) (by decide)
      · exact absurd hpc h
      · exact absurd rfl h
  | @recv m rest r hsend hch hr =>
    obtain ⟨hready, hh⟩ := (Core.branches E).recv me _ _ _ hr
    obtain ⟨hb, hpc⟩ := Node.idle_of_ready hready
    have hcap := hs.cap
    rw [hch, List.length_cons] at hcap
    exact Inv.ran (s := { s with recvCh := rest }) hsend hcap (sends_handling hh hb hpc)
  | run hsend ha hr =>
    rcases ha with rfl | rfl
    · obtain ⟨hb, hsends⟩ := sends_boot (Core.acting hr)
      exact Inv.ran hsend (hs.free (Or.inl hb)) (hsends (hs.boot hb))
    · obtain ⟨hpc, hsends⟩ := sends_main (Core.acting hr)
      have hb : s.node.booted = true := by
        by_contra hb
        exact hpc (hs.boot (by simpa using hb))
      exact Inv.ran hsend (hs.free (Or.inr (Or.inl hpc))) (hsends hb)
  | @task i r hr =>
    cases Core.acting hr with
    | task _ _ _ hwork => exact hs.same hwork.pc hwork.booted _
  | @other a r ha hr =>
    obtain ⟨c', os⟩ := r
    rcases ha with rfl | ⟨txs, rfl⟩ <;> cases Core.acting hr <;>
      (refine hs.same ?_ ?_ _ <;> rfl)

theorem Reach.inv {s : Loop D} (h : Reach E me (inboxCap - 1) s) : s.Inv := by
  induction h with
  | refl => exact Inv.start
  | tail _ hs ih => exact hs.inv ih

/-! ## Deadlock -/

/-- While `Run` waits nobody can do anything about it, -/
theorem Step.waits {s s' : Loop D} (h : Step E me inboxCap s s') (hs : s.Waits) : s'.Waits := by
  obtain ⟨hsend, hfull⟩ := hs
  cases h with
  | arrive m hroom => exact absurd hroom (not_lt.2 hfull)
  | enqueue _ hroom => exact absurd hroom (not_lt.2 hfull)
  | push _ hroom => exact absurd hroom (not_lt.2 hfull)
  | recv hnil _ _ => exact absurd hnil hsend
  | run hnil _ _ => exact absurd hnil hsend
  | task _ => exact ⟨hsend, hfull⟩
  | other _ _ => exact ⟨hsend, hfull⟩

/-- ever. -/
theorem Steps.waits {s s' : Loop D} (h : Steps E me inboxCap s s') (hs : s.Waits) : s'.Waits := by
  induction h with
  | refl => exact hs
  | tail _ hstep ih => exact hstep.waits ih

theorem exists_full (E : Env D) (me : NodeID) (m : Msg D) (n : ℕ) (s : Loop D) (room : ℕ)
    (hn : s.recvCh.length + n ≤ room) :
    ∃ s', Steps E me room s s' ∧ s'.recvCh.length = s.recvCh.length + n ∧
      s'.sending = s.sending := by
  induction n with
  | zero => exact ⟨s, Relation.ReflTransGen.refl, rfl, rfl⟩
  | succ n ih =>
    obtain ⟨s', hs', hlen, hsend⟩ := ih (by omega)
    refine ⟨_, hs'.tail (Step.arrive m (by omega)), ?_, hsend⟩
    rw [List.length_append, List.length_singleton, hlen, Nat.add_assoc]

/-- Wherever `Run` is about to send to itself, it may come to wait. -/
theorem exists_waits (E : Env D) (me : NodeID) (m : Msg D) {s : Loop D} (hcap : s.recvCh.length ≤ inboxCap)
    (hsend : s.sending ≠ []) : ∃ s', Steps E me inboxCap s s' ∧ s'.Waits := by
  obtain ⟨s', hs', hlen, hsend'⟩ :=
    exists_full E me m (inboxCap - s.recvCh.length) s inboxCap (by omega)
  exact ⟨s', hs', hsend' ▸ hsend, by omega⟩

end Loop

/-- **The loop does not deadlock on its inbox** in the runs in which the network and the goroutines of the
instances leave one place free. -/
theorem inbox_progress (E : Env D) (self : NodeID) (s : Loop D)
    (hs : Loop.Reach E self (inboxCap - 1) s) : Loop.Reach E self inboxCap s ∧ ¬ s.Waits := by
  refine ⟨Relation.ReflTransGen.mono (fun _ _ => Loop.Step.widen E self (Nat.sub_le _ _)) _ _ hs, ?_⟩
  rintro ⟨hsend, hfull⟩
  exact absurd (hs.inv.free (Or.inr (Or.inr hsend))) (not_lt.2 hfull)

/-- The loop of node 0 of four when `Run` has been entered and has the first proposal for itself. -/
def Loop.entered : Loop ℕ :=
  (Loop.start (Env.plain 4 fun _ => 0)).ran 0
    (((Node.new (Env.plain 4 fun _ => 0)).boot (Env.plain 4 fun _ => 0) 0).get rfl)

theorem Loop.start_entered (room : ℕ) :
    Loop.Step (Env.plain 4 fun _ => 0) 0 room (Loop.start (Env.plain 4 fun _ => 0)) Loop.entered :=
  Loop.Step.run (a := .boot) rfl (Or.inl rfl) (Option.some_get _).symm

/-- The others have filled the channel up to the last place when `Run` has its first proposal for itself. -/
theorem inbox_progress_crowded :
    ∃ s, Loop.Reach (Env.plain 4 fun _ => 0) 0 (inboxCap - 1) s ∧ s.recvCh.length = inboxCap - 1 ∧
      s.sending ≠ [] ∧ Loop.Reach (Env.plain 4 fun _ => 0) 0 inboxCap s ∧ ¬ s.Waits := by
  obtain ⟨s, hs, hlen, hsend⟩ := Loop.exists_full (Env.plain 4 fun _ => 0) 0 (.elect ⟨0, 0, []⟩)
    (inboxCap - 1) Loop.entered (inboxCap - 1) (Nat.zero_add _).le
  have h : Loop.Reach (Env.plain 4 fun _ => 0) 0 (inboxCap - 1) s := hs.head (Loop.start_entered _)
  have hne : s.sending ≠ [] := by
    rw [hsend]
    decide
  exact ⟨s, h, hlen.trans (Nat.zero_add _), hne, inbox_progress _ _ _ h⟩

/-- The others fill the channel before the first proposal is on it: `Run` and every goroutine with a message
for the node wait for ever. -/
theorem inbox_deadlock :
    ∃ s, Loop.Reach (Env.plain 4 fun _ => 0) 0 inboxCap s ∧ s.Waits ∧
      ∀ s', Loop.Steps (Env.plain 4 fun _ => 0) 0 inboxCap s s' → s'.Waits := by
  obtain ⟨s, hs, hw⟩ := Loop.exists_waits (Env.plain 4 fun _ => 0) 0 (.elect ⟨0, 0, []⟩)
    (s := Loop.entered) (by decide) (by decide)
  exact ⟨s, hs.head (Loop.start_entered _), hw, fun _ h => h.waits hw⟩

end S2Pac
