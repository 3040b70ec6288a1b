import Mathlib.Algebra.BigOperators.Group.Finset.Basic
import Mathlib.Algebra.BigOperators.Group.Finset.Piecewise
import Mathlib.Algebra.Order.BigOperators.Group.Finset
import Mathlib.Data.List.Count
import Mathlib.Data.List.Infix
import Mathlib.Logic.Function.Basic
import Mathlib.Logic.Relation
import Mathlib.Tactic.Common

/-!
# Hosts that exchange messages, each delivered at most once

A `Machine` is the code of every host: what it does with a message (`recv`) and the other steps it
can take (`act`). A `Host` is a host's state with the history of what it has received and put out; a
`World` is all the hosts and the messages in flight. A message is in flight once for every host it
was sent to, and a delivery takes it out of the air, so that it arrives at most once, after any
delay and in any order, or never.

A guard `G` restricts the runs that are looked at: `M.Reach G` are the worlds reached by steps that
all meet `G`, and `M.Local G i` what a single host can go through when it may be handed any message
at all. Every host of a reachable world has gone through a local run (`Reach.local`), so a fact about
one host is proved on local runs.

* `Reach.conserve`: what a host has received and what is in flight to it is what has been sent to it;
* `Reach.exists_authors`: when no host has sent it twice, `k` received messages come from `k` hosts;
* `Reach.sent_induction`: a property of messages that every host passes on from what it received;
* `Local.without_repeats`: repeated messages that change nothing can be left out of a run.
-/

set_option linter.unusedSectionVars false

namespace S2Pac.Lib

/-- What a host puts out: a message to every host (itself included), to every other host, or to one
host; or an observable event that is no message. -/
inductive Out (ι μ ω : Type) where
  | bcast (m : μ)
  | others (m : μ)
  | to (i : ι) (m : μ)
  | event (e : ω)
  deriving DecidableEq

/-- The code of the hosts. `none`: the step is not enabled. -/
structure Machine (ι σ μ α ω : Type) where
  hosts : List ι
  nodup : hosts.Nodup
  init : ι → σ
  recv : ι → σ → μ → Option (σ × List (Out ι μ ω))
  act : ι → σ → α → Option (σ × List (Out ι μ ω))

/-- A host: its state, the messages it has received and what it has put out, oldest first. -/
structure Host (ι σ μ ω : Type) where
  st : σ
  received : List μ
  outs : List (Out ι μ ω)

/-- What makes a host move. -/
inductive Input (μ α : Type) where
  | recv (m : μ)
  | act (a : α)

/-- The message that comes in. -/
@[simp] def Input.heard {μ α : Type} : Input μ α → List μ
  | .recv m => [m]
  | .act _ => []

/-- The hosts and the messages in flight, each with the host it is on its way to. -/
structure World (ι σ μ ω : Type) where
  host : ι → Host ι σ μ ω
  net : List (ι × μ)

/-- A step of the world: the delivery of a message in flight, or a step of one host. -/
inductive Action (ι α : Type) where
  | deliver (k : ℕ)
  | act (i : ι) (a : α)
  deriving DecidableEq

/-- A step of the world, described by what it does rather than by a position. -/
inductive Order (ι μ α : Type) where
  | deliver (i : ι) (P : μ → Bool)
  | act (i : ι) (a : α)

variable {ι σ μ α ω : Type} [DecidableEq ι]

namespace Out

/-- The message an output carries. -/
def msg : Out ι μ ω → Option μ
  | .bcast m => some m
  | .others m => some m
  | .to _ m => some m
  | .event _ => none

/-- The message an output of `src` brings to `dst`. -/
def msgTo (src dst : ι) : Out ι μ ω → Option μ
  | .bcast m => some m
  | .others m => if dst = src then none else some m
  | .to i m => if dst = i then some m else none
  | .event _ => none

theorem msg_of_msgTo {src dst : ι} {o : Out ι μ ω} {m : μ} (h : o.msgTo src dst = some m) :
    o.msg = some m := by
  cases o with
  | bcast m' => exact h
  | others m' =>
    simp only [msgTo] at h
    split at h
    · cases h
    · exact h
  | «to» i m' =>
    simp only [msgTo] at h
    split at h
    · exact h
    · cases h
  | event e => cases h

/-- The output brings `dst` a message that satisfies `P`. -/
def brings (src dst : ι) (P : μ → Bool) (o : Out ι μ ω) : Bool := (o.msgTo src dst).any P

/-- The output carries a message that satisfies `P`, to whomever. -/
def carries (P : μ → Bool) (o : Out ι μ ω) : Bool := o.msg.any P

@[simp] theorem carries_bcast (P : μ → Bool) (m : μ) :
    carries P (.bcast m : Out ι μ ω) = P m := rfl

@[simp] theorem carries_others (P : μ → Bool) (m : μ) :
    carries P (.others m : Out ι μ ω) = P m := rfl

@[simp] theorem carries_to (P : μ → Bool) (i : ι) (m : μ) :
    carries P (.to i m : Out ι μ ω) = P m := rfl

@[simp] theorem carries_event (P : μ → Bool) (e : ω) :
    carries P (.event e : Out ι μ ω) = false := rfl

theorem carries_iff {P : μ → Bool} {o : Out ι μ ω} :
    o.carries P = true ↔ ∃ m, o.msg = some m ∧ P m = true := by
  simp [carries, Option.any_eq_true]

theorem brings_iff {src dst : ι} {P : μ → Bool} {o : Out ι μ ω} :
    o.brings src dst P = true ↔ ∃ m, o.msgTo src dst = some m ∧ P m = true := by
  simp [brings, Option.any_eq_true]

theorem carries_of_brings {src dst : ι} {P : μ → Bool} {o : Out ι μ ω}
    (h : o.brings src dst P = true) : o.carries P = true := by
  obtain ⟨m, hm, hP⟩ := brings_iff.1 h
  exact carries_iff.2 ⟨m, msg_of_msgTo hm, hP⟩

end Out

/-- The step that an order asks for: the delivery of the first message in flight to `i` that
satisfies `P`, or a step of `i`. -/
def Order.resolve (w : World ι σ μ ω) : Order ι μ α → Option (Action ι α)
  | .deliver i P => (w.net.findIdx? fun p => decide (p.1 = i) && P p.2).map Action.deliver
  | .act i a => some (Action.act i a)

theorem countP_eraseIdx {α : Type*} (l : List α) (k : ℕ) (p : α) (h : l[k]? = some p)
    (Q : α → Bool) : l.countP Q = (l.eraseIdx k).countP Q + if Q p then 1 else 0 := by
  induction l generalizing k with
  | nil => simp at h
  | cons a l ih =>
    cases k with
    | zero =>
      simp only [List.getElem?_cons_zero, Option.some.injEq] at h
      subst h
      simp [List.countP_cons]
    | succ k =>
      simp only [List.getElem?_cons_succ] at h
      rw [List.countP_cons, ih k h, List.eraseIdx_cons_succ, List.countP_cons]
      omega

theorem eq_of_countP_le_one {α : Type*} {l : List α} {Q : α → Bool} (h : l.countP Q ≤ 1) {a b : α}
    (ha : a ∈ l) (hb : b ∈ l) (hqa : Q a = true) (hqb : Q b = true) : a = b := by
  rw [List.countP_eq_length_filter] at h
  have ha : a ∈ l.filter Q := List.mem_filter.2 ⟨ha, hqa⟩
  have hb : b ∈ l.filter Q := List.mem_filter.2 ⟨hb, hqb⟩
  match hl : l.filter Q, h with
  | [], _ => rw [hl] at ha; exact absurd ha List.not_mem_nil
  | [c], _ =>
    rw [hl, List.mem_singleton] at ha hb
    rw [ha, hb]

namespace Machine

variable (M : Machine ι σ μ α ω)

/-- A host before its first step. -/
def start (i : ι) : Host ι σ μ ω := ⟨M.init i, [], []⟩

/-- What an input makes of a host, and what the host puts out. -/
def input (i : ι) (h : Host ι σ μ ω) : Input μ α → Option (Host ι σ μ ω × List (Out ι μ ω))
  | .recv m => (M.recv i h.st m).map fun r => (⟨r.1, h.received ++ [m], h.outs ++ r.2⟩, r.2)
  | .act a => (M.act i h.st a).map fun r => (⟨r.1, h.received, h.outs ++ r.2⟩, r.2)

/-- The packets of an output of `src`. -/
def packets (src : ι) (o : Out ι μ ω) : List (ι × μ) :=
  M.hosts.filterMap fun i => (o.msgTo src i).map (i, ·)

/-- The world before the first step. -/
def world : World ι σ μ ω := ⟨M.start, []⟩

/-- Host `i` becomes `r.1` and its outputs `r.2` are sent. -/
def put (w : World ι σ μ ω) (i : ι) (net : List (ι × μ))
    (r : Host ι σ μ ω × List (Out ι μ ω)) : World ι σ μ ω :=
  ⟨Function.update w.host i r.1, net ++ r.2.flatMap (M.packets i)⟩

/-- One step of the world. -/
def step (w : World ι σ μ ω) : Action ι α → Option (World ι σ μ ω)
  | .deliver k =>
    match w.net[k]? with
    | none => none
    | some (i, m) => (M.input i (w.host i) (.recv m)).map (M.put w i (w.net.eraseIdx k))
  | .act i a =>
    if i ∈ M.hosts then (M.input i (w.host i) (.act a)).map (M.put w i w.net) else none

/-- A guard on the inputs of a host. -/
abbrev Guard (ι σ μ α ω : Type) := ι → Host ι σ μ ω → Input μ α → Prop

/-- No restriction. -/
def anyInput : Guard ι σ μ α ω := fun _ _ _ => True

instance (i : ι) (h : Host ι σ μ ω) (x : Input μ α) : Decidable (anyInput i h x) :=
  inferInstanceAs (Decidable True)

/-- The step meets the guard. -/
def admits (G : Guard ι σ μ α ω) [∀ i h x, Decidable (G i h x)] (w : World ι σ μ ω) :
    Action ι α → Bool
  | .deliver k => w.net[k]?.all fun p => decide (G p.1 (w.host p.1) (.recv p.2))
  | .act i a => decide (G i (w.host i) (.act a))

/-- The world after the steps that a list of orders asks for. An order that cannot be followed, or
only against the guard, is skipped. -/
def play (G : Guard ι σ μ α ω) [∀ i h x, Decidable (G i h x)] (w : World ι σ μ ω) :
    List (Order ι μ α) → World ι σ μ ω
  | [] => w
  | o :: os =>
    match (o.resolve w).bind fun a => if admits G w a then M.step w a else none with
    | none => play G w os
    | some w' => play G w' os

/-- What host `i` can go through when it may be handed any message. -/
inductive Local (G : Guard ι σ μ α ω) (i : ι) : Host ι σ μ ω → Prop
  | start : Local G i (M.start i)
  | recv {h : Host ι σ μ ω} {m : μ} {s : σ} {o : List (Out ι μ ω)} : Local G i h →
      G i h (.recv m) → M.recv i h.st m = some (s, o) → Local G i ⟨s, h.received ++ [m], h.outs ++ o⟩
  | act {h : Host ι σ μ ω} {a : α} {s : σ} {o : List (Out ι μ ω)} : Local G i h →
      G i h (.act a) → M.act i h.st a = some (s, o) → Local G i ⟨s, h.received, h.outs ++ o⟩

/-- What a host becomes by an input that meets the guard. -/
def LocalStep (G : Guard ι σ μ α ω) (i : ι) (h h' : Host ι σ μ ω) : Prop :=
  ∃ x r, G i h x ∧ M.input i h x = some r ∧ r.1 = h'

/-- What a host becomes over a number of inputs. -/
abbrev LocalSteps (G : Guard ι σ μ α ω) (i : ι) : Host ι σ μ ω → Host ι σ μ ω → Prop :=
  Relation.ReflTransGen (M.LocalStep G i)

/-- The host after a list of inputs. An input that it does not take, or only against the guard, is
skipped. -/
def feed (G : Guard ι σ μ α ω) [∀ i h x, Decidable (G i h x)] (i : ι) (h : Host ι σ μ ω) :
    List (Input μ α) → Host ι σ μ ω
  | [] => h
  | x :: xs =>
    match if G i h x then M.input i h x else none with
    | none => feed G i h xs
    | some r => feed G i r.1 xs

/-- One step of the world that meets the guard. -/
inductive Step (G : Guard ι σ μ α ω) : World ι σ μ ω → World ι σ μ ω → Prop
  | deliver {w : World ι σ μ ω} {k : ℕ} {i : ι} {m : μ} {r : Host ι σ μ ω × List (Out ι μ ω)} :
      w.net[k]? = some (i, m) → G i (w.host i) (.recv m) →
      M.input i (w.host i) (.recv m) = some r → Step G w (M.put w i (w.net.eraseIdx k) r)
  | act {w : World ι σ μ ω} {i : ι} {a : α} {r : Host ι σ μ ω × List (Out ι μ ω)} :
      i ∈ M.hosts → G i (w.host i) (.act a) →
      M.input i (w.host i) (.act a) = some r → Step G w (M.put w i w.net r)

/-- Runs. -/
abbrev Steps (G : Guard ι σ μ α ω) : World ι σ μ ω → World ι σ μ ω → Prop :=
  Relation.ReflTransGen (M.Step G)

/-- The worlds of the runs from the start. -/
abbrev Reach (G : Guard ι σ μ α ω) (w : World ι σ μ ω) : Prop := M.Steps G M.world w

variable {M} {G : Guard ι σ μ α ω}

theorem step_sound [∀ i h x, Decidable (G i h x)] {w w' : World ι σ μ ω} {a : Action ι α}
    (hg : admits G w a = true) (h : M.step w a = some w') : M.Step G w w' := by
  cases a with
  | deliver k =>
    simp only [step] at h
    split at h
    · cases h
    · next i m hk =>
      obtain ⟨r, hr, rfl⟩ := Option.map_eq_some_iff.1 h
      simp only [admits, hk, Option.all_some, decide_eq_true_eq] at hg
      exact Step.deliver hk hg hr
  | act i a =>
    simp only [step] at h
    split at h
    · next hi =>
      obtain ⟨r, hr, rfl⟩ := Option.map_eq_some_iff.1 h
      exact Step.act hi (of_decide_eq_true hg) hr
    · cases h

theorem play_sound [∀ i h x, Decidable (G i h x)] (w : World ι σ μ ω) (os : List (Order ι μ α)) :
    M.Steps G w (M.play G w os) := by
  induction os generalizing w with
  | nil => exact Relation.ReflTransGen.refl
  | cons o os ih =>
    simp only [play]
    split
    · exact ih w
    · next w₁ h₁ =>
      obtain ⟨a, -, ha⟩ := Option.bind_eq_some_iff.1 h₁
      split at ha
      · next hg => exact Relation.ReflTransGen.head (step_sound hg ha) (ih w₁)
      · cases ha

/-! ## Hosts of a world -/

@[simp] theorem put_host_self (w : World ι σ μ ω) (i : ι) (net : List (ι × μ))
    (r : Host ι σ μ ω × List (Out ι μ ω)) : (M.put w i net r).host i = r.1 := by
  simp [put]

theorem put_host_ne (w : World ι σ μ ω) {i j : ι} (net : List (ι × μ))
    (r : Host ι σ μ ω × List (Out ι μ ω)) (h : j ≠ i) : (M.put w i net r).host j = w.host j := by
  simp [put, h]

theorem input_received {i : ι} {h : Host ι σ μ ω} {x : Input μ α}
    {r : Host ι σ μ ω × List (Out ι μ ω)} (hr : M.input i h x = some r) :
    h.received <+: r.1.received := by
  cases x with
  | recv m =>
    obtain ⟨⟨s, o⟩, -, rfl⟩ := Option.map_eq_some_iff.1 hr
    exact List.prefix_append _ _
  | act a =>
    obtain ⟨⟨s, o⟩, -, rfl⟩ := Option.map_eq_some_iff.1 hr
    exact List.prefix_refl _

theorem input_outs {i : ι} {h : Host ι σ μ ω} {x : Input μ α}
    {r : Host ι σ μ ω × List (Out ι μ ω)} (hr : M.input i h x = some r) :
    r.1.outs = h.outs ++ r.2 := by
  cases x with
  | recv m => obtain ⟨⟨s, o⟩, -, rfl⟩ := Option.map_eq_some_iff.1 hr; rfl
  | act a => obtain ⟨⟨s, o⟩, -, rfl⟩ := Option.map_eq_some_iff.1 hr; rfl

theorem Local.input {i : ι} {h : Host ι σ μ ω} {x : Input μ α}
    {r : Host ι σ μ ω × List (Out ι μ ω)} (hl : M.Local G i h) (hg : G i h x)
    (hr : M.input i h x = some r) : M.Local G i r.1 := by
  cases x with
  | recv m =>
    obtain ⟨⟨s, o⟩, hs, rfl⟩ := Option.map_eq_some_iff.1 hr
    exact Local.recv hl hg hs
  | act a =>
    obtain ⟨⟨s, o⟩, hs, rfl⟩ := Option.map_eq_some_iff.1 hr
    exact Local.act hl hg hs

theorem Local.steps {i : ι} {h h' : Host ι σ μ ω} (hl : M.Local G i h)
    (hs : M.LocalSteps G i h h') : M.Local G i h' := by
  induction hs with
  | refl => exact hl
  | tail _ hstep ih =>
    obtain ⟨x, r, hg, hr, rfl⟩ := hstep
    exact ih.input hg hr

theorem LocalSteps.received_prefix {i : ι} {h h' : Host ι σ μ ω} (hs : M.LocalSteps G i h h') :
    h.received <+: h'.received := by
  induction hs with
  | refl => exact List.prefix_refl _
  | tail _ hstep ih =>
    obtain ⟨x, r, -, hr, rfl⟩ := hstep
    exact ih.trans (input_received hr)

theorem Local.weaken {G' : Guard ι σ μ α ω} (hG : ∀ i h x, G i h x → G' i h x) {i : ι}
    {h : Host ι σ μ ω} (hl : M.Local G i h) : M.Local G' i h := by
  induction hl with
  | start => exact Local.start
  | recv _ hg hs ih => exact Local.recv ih (hG _ _ _ hg) hs
  | act _ hg hs ih => exact Local.act ih (hG _ _ _ hg) hs

/-- A message comes again only where `P` holds of it. -/
def repeatsIf (P : σ → μ → Prop) : Guard ι σ μ α ω :=
  fun _ h x => ∀ m, x = .recv m → m ∈ h.received → P h.st m

instance {P : σ → μ → Prop} [DecidableEq μ] [∀ s m, Decidable (P s m)] (i : ι) (h : Host ι σ μ ω)
    (x : Input μ α) : Decidable (repeatsIf P i h x) :=
  match x with
  | .recv m => decidable_of_iff (m ∈ h.received → P h.st m)
      ⟨fun hm _ he => by cases he; exact hm, fun hm => hm m rfl⟩
  | .act _ => isTrue fun _ he => by cases he

/-- No message comes again. -/
def fresh : Guard ι σ μ α ω := repeatsIf fun _ _ => False

/-- **Repeated messages can be left out** of a run in which they change nothing and make the host put
out nothing. -/
theorem Local.without_repeats {P : σ → μ → Prop} {i : ι}
    (hP : ∀ h m r, M.Local (repeatsIf P) i h → m ∈ h.received → P h.st m →
      M.recv i h.st m = some r → r = (h.st, []))
    {h : Host ι σ μ ω} (hl : M.Local (repeatsIf P) i h) :
    ∃ h', M.Local fresh i h' ∧ h'.st = h.st ∧ h'.outs = h.outs ∧
      ∀ m, m ∈ h'.received ↔ m ∈ h.received := by
  induction hl with
  | start => exact ⟨M.start i, Local.start, rfl, rfl, fun _ => Iff.rfl⟩
  | @recv h m s o hl hg hs ih =>
    obtain ⟨h', hl', hst, houts, hrec⟩ := ih
    by_cases hm : m ∈ h.received
    · -- nothing happens
      obtain ⟨rfl, rfl⟩ := Prod.mk.inj (hP h m _ hl hm (hg m rfl hm) hs)
      refine ⟨h', hl', hst, by simpa using houts, fun x => (hrec x).trans ⟨?_, ?_⟩⟩
      · exact List.mem_append_left _
      · intro hx
        rcases List.mem_append.1 hx with hx | hx
        · exact hx
        · exact List.mem_singleton.1 hx ▸ hm
    · have hfresh : M.Local fresh i ⟨s, h'.received ++ [m], h'.outs ++ o⟩ := by
        refine Local.recv hl' (fun m' he hm' => ?_) (hst ▸ hs)
        cases he
        exact hm ((hrec m).1 hm')
      exact ⟨_, hfresh, rfl, by rw [houts], fun x => by simp [hrec]⟩
  | @act h a s o hl hg hs ih =>
    obtain ⟨h', hl', hst, houts, hrec⟩ := ih
    exact ⟨⟨s, h'.received, h'.outs ++ o⟩, Local.act hl' (fun _ he => nomatch he) (hst ▸ hs), rfl,
      by rw [houts], hrec⟩

theorem Local.localSteps {i : ι} {h : Host ι σ μ ω} (hl : M.Local G i h) :
    M.LocalSteps G i (M.start i) h := by
  induction hl with
  | start => exact Relation.ReflTransGen.refl
  | @recv h m s o _ hg hs ih =>
    exact ih.tail ⟨.recv m, _, hg, by rw [Machine.input, hs]; rfl, rfl⟩
  | @act h a s o _ hg hs ih =>
    exact ih.tail ⟨.act a, _, hg, by rw [Machine.input, hs]; rfl, rfl⟩

theorem feed_sound [∀ i h x, Decidable (G i h x)] (i : ι) (h : Host ι σ μ ω)
    (xs : List (Input μ α)) : M.LocalSteps G i h (M.feed G i h xs) := by
  induction xs generalizing h with
  | nil => exact Relation.ReflTransGen.refl
  | cons x xs ih =>
    simp only [feed]
    split
    · exact ih h
    · next r hr =>
      split at hr
      · next hg => exact Relation.ReflTransGen.head ⟨x, r, hg, hr, rfl⟩ (ih r.1)
      · cases hr

/-- **Where an output comes from**: the step of the local run that put it out. -/
theorem Local.origin {i : ι} {h : Host ι σ μ ω} (hl : M.Local G i h) {o : Out ι μ ω}
    (ho : o ∈ h.outs) : ∃ h₀ x r, M.Local G i h₀ ∧ G i h₀ x ∧ M.input i h₀ x = some r ∧ o ∈ r.2 ∧
      r.1.received <+: h.received ∧ r.1.outs <+: h.outs := by
  induction hl with
  | start => exact absurd ho List.not_mem_nil
  | @recv h m s os hl hg hs ih =>
    rcases List.mem_append.1 ho with ho | ho
    · obtain ⟨h₀, x, r, hl₀, hx, hr, hor, hrec, hout⟩ := ih ho
      exact ⟨h₀, x, r, hl₀, hx, hr, hor, hrec.trans (List.prefix_append _ _),
        hout.trans (List.prefix_append _ _)⟩
    · exact ⟨h, .recv m, (⟨s, h.received ++ [m], h.outs ++ os⟩, os), hl, hg,
        by simp [Machine.input, hs], ho, List.prefix_refl _, List.prefix_refl _⟩
  | @act h a s os hl hg hs ih =>
    rcases List.mem_append.1 ho with ho | ho
    · obtain ⟨h₀, x, r, hl₀, hx, hr, hor, hrec, hout⟩ := ih ho
      exact ⟨h₀, x, r, hl₀, hx, hr, hor, hrec, hout.trans (List.prefix_append _ _)⟩
    · exact ⟨h, .act a, (⟨s, h.received, h.outs ++ os⟩, os), hl, hg,
        by simp [Machine.input, hs], ho, List.prefix_refl _, List.prefix_refl _⟩

theorem Steps.mono {G' : Guard ι σ μ α ω} (hG : ∀ i h x, G i h x → G' i h x)
    {w w' : World ι σ μ ω} (h : M.Steps G w w') : M.Steps G' w w' := by
  refine Relation.ReflTransGen.mono (r := M.Step G) (fun a b hab => ?_) _ _ h
  cases hab with
  | deliver hk hg hr => exact Step.deliver hk (hG _ _ _ hg) hr
  | act hi hg hr => exact Step.act hi (hG _ _ _ hg) hr

/-- **Every host of a reachable world has gone through a local run.** -/
theorem Reach.local {w : World ι σ μ ω} (h : M.Reach G w) (i : ι) : M.Local G i (w.host i) := by
  induction h with
  | refl => exact Local.start
  | tail _ hs ih =>
    cases hs with
    | @deliver k j m r hk hg hr =>
      by_cases hij : i = j
      · subst hij
        rw [put_host_self]
        exact ih.input hg hr
      · rw [put_host_ne _ _ _ hij]
        exact ih
    | @act j a r hj hg hr =>
      by_cases hij : i = j
      · subst hij
        rw [put_host_self]
        exact ih.input hg hr
      · rw [put_host_ne _ _ _ hij]
        exact ih

/-! ## Histories only grow -/

/-- `w'` is a later world than `w`: no host has forgotten anything. -/
def Later (w w' : World ι σ μ ω) : Prop :=
  ∀ i, (w.host i).received <+: (w'.host i).received ∧ (w.host i).outs <+: (w'.host i).outs

theorem Later.refl (w : World ι σ μ ω) : Later w w :=
  fun _ => ⟨List.prefix_refl _, List.prefix_refl _⟩

theorem Later.trans {w₁ w₂ w₃ : World ι σ μ ω} (h : Later w₁ w₂) (h' : Later w₂ w₃) : Later w₁ w₃ :=
  fun i => ⟨(h i).1.trans (h' i).1, (h i).2.trans (h' i).2⟩

theorem Later.put {w : World ι σ μ ω} {i : ι} {net : List (ι × μ)} {x : Input μ α}
    {r : Host ι σ μ ω × List (Out ι μ ω)} (hr : M.input i (w.host i) x = some r) :
    Later w (M.put w i net r) := by
  intro j
  by_cases hij : j = i
  · subst hij
    rw [put_host_self]
    exact ⟨input_received hr, input_outs hr ▸ List.prefix_append _ _⟩
  · rw [put_host_ne _ _ _ hij]
    exact ⟨List.prefix_refl _, List.prefix_refl _⟩

theorem Step.later {w w' : World ι σ μ ω} (h : M.Step G w w') : Later w w' := by
  cases h with
  | deliver hk hg hr => exact Later.put hr
  | act hi hg hr => exact Later.put hr

theorem Steps.later {w w' : World ι σ μ ω} (h : M.Steps G w w') : Later w w' := by
  induction h with
  | refl => exact Later.refl _
  | tail _ hs ih => exact ih.trans hs.later

/-! ## Conservation of messages -/

/-- How many messages that satisfy `P` the hosts have sent to `i`. -/
def sentTo (M : Machine ι σ μ α ω) (w : World ι σ μ ω) (i : ι) (P : μ → Bool) : ℕ :=
  ∑ j ∈ M.hosts.toFinset, (w.host j).outs.countP (Out.brings j i P)

/-- How many messages that satisfy `P` are in flight to `i`. -/
def inFlight (w : World ι σ μ ω) (i : ι) (P : μ → Bool) : ℕ :=
  w.net.countP fun p => decide (p.1 = i) && P p.2

theorem countP_packets (M : Machine ι σ μ α ω) {i : ι} (hi : i ∈ M.hosts) (src : ι)
    (o : Out ι μ ω) (P : μ → Bool) :
    (M.packets src o).countP (fun p => decide (p.1 = i) && P p.2) =
      if o.brings src i P then 1 else 0 := by
  have key : ∀ l : List ι, l.Nodup →
      (l.filterMap fun j => (o.msgTo src j).map (j, ·)).countP (fun p => decide (p.1 = i) && P p.2) =
        if i ∈ l ∧ o.brings src i P then 1 else 0 := by
    intro l hl
    induction l with
    | nil => simp
    | cons j l ih =>
      obtain ⟨hj, hl⟩ := List.nodup_cons.1 hl
      rw [List.filterMap_cons]
      by_cases hij : j = i
      · subst hij
        cases hm : o.msgTo src j with
        | none => simp [ih hl, hj, Out.brings, hm]
        | some m => simp [ih hl, hj, Out.brings, hm, List.countP_cons]
      · cases hm : o.msgTo src j with
        | none => simp [ih hl, Ne.symm hij]
        | some m => simp [ih hl, hij, Ne.symm hij]
  rw [packets, key _ M.nodup]
  simp [hi]

theorem countP_flatMap_packets (M : Machine ι σ μ α ω) {i : ι} (hi : i ∈ M.hosts) (src : ι)
    (os : List (Out ι μ ω)) (P : μ → Bool) :
    (os.flatMap (M.packets src)).countP (fun p => decide (p.1 = i) && P p.2) =
      os.countP (Out.brings src i P) := by
  induction os with
  | nil => simp
  | cons o os ih =>
    rw [List.flatMap_cons, List.countP_append, countP_packets M hi, ih, List.countP_cons, add_comm]

theorem sentTo_put {w : World ι σ μ ω} {j : ι} (hj : j ∈ M.hosts) {net : List (ι × μ)}
    {x : Input μ α} {r : Host ι σ μ ω × List (Out ι μ ω)} (hr : M.input j (w.host j) x = some r)
    (i : ι) (P : μ → Bool) :
    M.sentTo (M.put w j net r) i P = M.sentTo w i P + r.2.countP (Out.brings j i P) := by
  unfold sentTo
  have hj' : j ∈ M.hosts.toFinset := List.mem_toFinset.2 hj
  rw [← Finset.add_sum_erase _ _ hj', ← Finset.add_sum_erase M.hosts.toFinset _ hj', put_host_self,
    input_outs hr, List.countP_append]
  have hrest : ∑ k ∈ M.hosts.toFinset.erase j,
        ((M.put w j net r).host k).outs.countP (Out.brings k i P) =
      ∑ k ∈ M.hosts.toFinset.erase j, (w.host k).outs.countP (Out.brings k i P) :=
    Finset.sum_congr rfl fun k hk => by rw [put_host_ne _ _ _ (Finset.ne_of_mem_erase hk)]
  rw [hrest]
  omega

theorem mem_packets_hosts {src : ι} {os : List (Out ι μ ω)} {p : ι × μ}
    (hp : p ∈ os.flatMap (M.packets src)) : p.1 ∈ M.hosts := by
  obtain ⟨o, -, hp⟩ := List.mem_flatMap.1 hp
  obtain ⟨a, ha, hp⟩ := List.mem_filterMap.1 hp
  obtain ⟨m, -, rfl⟩ := Option.map_eq_some_iff.1 hp
  exact ha

theorem Reach.net_hosts {w : World ι σ μ ω} (h : M.Reach G w) {p : ι × μ} (hp : p ∈ w.net) :
    p.1 ∈ M.hosts := by
  induction h with
  | refl => simp [world] at hp
  | tail _ hs ih =>
    cases hs with
    | deliver _ _ _ =>
      rcases List.mem_append.1 hp with hp | hp
      · exact ih (List.mem_of_mem_eraseIdx hp)
      · exact mem_packets_hosts hp
    | act _ _ _ =>
      rcases List.mem_append.1 hp with hp | hp
      · exact ih hp
      · exact mem_packets_hosts hp

/-- **Conservation.** What `i` has received and what is in flight to it is what has been sent to
it. -/
theorem Reach.conserve {w : World ι σ μ ω} (h : M.Reach G w) {i : ι} (hi : i ∈ M.hosts)
    (P : μ → Bool) :
    (w.host i).received.countP P + inFlight w i P = M.sentTo w i P := by
  induction h with
  | refl => simp [world, start, inFlight, sentTo]
  | @tail w _ hw hs ih =>
    cases hs with
    | @deliver k j m r hk hg hr =>
      have hfl : inFlight (M.put w j (w.net.eraseIdx k) r) i P =
          (w.net.eraseIdx k).countP (fun p => decide (p.1 = i) && P p.2) +
            r.2.countP (Out.brings j i P) := by
        simp only [inFlight, Machine.put, List.countP_append]
        rw [countP_flatMap_packets M hi]
      have hek := countP_eraseIdx w.net k (j, m) hk (fun p => decide (p.1 = i) && P p.2)
      have hj : j ∈ M.hosts := Reach.net_hosts hw (List.mem_of_getElem? hk)
      rw [sentTo_put hj hr, hfl]
      unfold inFlight at ih
      by_cases hij : j = i
      · subst hij
        obtain ⟨⟨s, o⟩, -, rfl⟩ := Option.map_eq_some_iff.1 hr
        rw [put_host_self]
        simp only [List.countP_append, List.countP_singleton]
        simp only [decide_true, Bool.true_and] at hek
        omega
      · rw [put_host_ne _ _ _ (Ne.symm hij)]
        simp only [hij, decide_false, Bool.false_and, Bool.false_eq_true, if_false] at hek
        omega
    | @act j a r hj hg hr =>
      have hfl : inFlight (M.put w j w.net r) i P = inFlight w i P +
          r.2.countP (Out.brings j i P) := by
        simp only [inFlight, Machine.put, List.countP_append]
        rw [countP_flatMap_packets M hi]
      have hrec : ((M.put w j w.net r).host i).received = (w.host i).received := by
        by_cases hij : i = j
        · subst hij
          obtain ⟨⟨s, o⟩, -, rfl⟩ := Option.map_eq_some_iff.1 hr
          rw [put_host_self]
        · rw [put_host_ne _ _ _ hij]
      rw [sentTo_put hj hr, hfl, hrec]
      omega

/-! ## Where received messages come from -/

theorem exists_sender [DecidableEq μ] {w : World ι σ μ ω} {i : ι} {m : μ}
    (h : 0 < M.sentTo w i fun m' => decide (m' = m)) :
    ∃ j ∈ M.hosts, ∃ o ∈ (w.host j).outs, o.msgTo j i = some m := by
  obtain ⟨j, hj, hjp⟩ := Finset.exists_ne_zero_of_sum_ne_zero (Nat.pos_iff_ne_zero.1 h)
  obtain ⟨o, ho, hb⟩ := List.countP_pos_iff.1 (Nat.pos_iff_ne_zero.2 hjp)
  obtain ⟨m', hm', hd⟩ := Out.brings_iff.1 hb
  rw [decide_eq_true_eq] at hd
  exact ⟨j, List.mem_toFinset.1 hj, o, ho, hd ▸ hm'⟩

theorem Reach.sender {w : World ι σ μ ω} (h : M.Reach G w) {i : ι} (hi : i ∈ M.hosts) {m : μ}
    (hm : m ∈ (w.host i).received) :
    ∃ j ∈ M.hosts, ∃ o ∈ (w.host j).outs, o.msgTo j i = some m := by
  classical
  have hc := h.conserve hi (fun m' => decide (m' = m))
  have hpos : 0 < (w.host i).received.countP (fun m' => decide (m' = m)) :=
    List.countP_pos_iff.2 ⟨m, hm, by simp⟩
  exact exists_sender (by omega)

theorem Reach.sender_inFlight {w : World ι σ μ ω} (h : M.Reach G w) {i : ι} {m : μ}
    (hm : (i, m) ∈ w.net) : ∃ j ∈ M.hosts, ∃ o ∈ (w.host j).outs, o.msgTo j i = some m := by
  classical
  have hi : i ∈ M.hosts := h.net_hosts hm
  have hc := h.conserve hi (fun m' => decide (m' = m))
  have hpos : 0 < inFlight w i (fun m' => decide (m' = m)) :=
    List.countP_pos_iff.2 ⟨(i, m), hm, by simp⟩
  exact exists_sender (by omega)

/-- A message that only `a` sends, and at most once, is received at most once. -/
theorem Reach.received_le_one {w : World ι σ μ ω} (h : M.Reach G w) {i : ι} (hi : i ∈ M.hosts)
    {P : μ → Bool} {a : ι}
    (hsrc : ∀ j ∈ M.hosts, j ≠ a → (w.host j).outs.countP (Out.carries P) = 0)
    (hone : (w.host a).outs.countP (Out.carries P) ≤ 1) : (w.host i).received.countP P ≤ 1 := by
  have hle : ∀ j, (w.host j).outs.countP (Out.brings j i P) ≤
      (w.host j).outs.countP (Out.carries P) := fun j =>
    List.countP_mono_left fun o _ => Out.carries_of_brings
  have hc := h.conserve hi P
  have hs : M.sentTo w i P ≤ 1 := by
    calc M.sentTo w i P ≤ ∑ j ∈ M.hosts.toFinset, if j = a then 1 else 0 := by
          refine Finset.sum_le_sum fun j hj => ?_
          have := hle j
          split
          · next h => subst h; omega
          · next h => have := hsrc j (List.mem_toFinset.1 hj) h; omega
      _ ≤ 1 := by
          rw [Finset.sum_ite_eq']
          split <;> omega
  omega

/-- **Distinct authors.** When a host puts its name `name` on the messages that satisfy `P`, and sends
at most one of them, then `k` such messages at `i` bear `k` names. -/
theorem Reach.exists_authors {w : World ι σ μ ω} (h : M.Reach G w) {i : ι} (hi : i ∈ M.hosts)
    {P : μ → Bool} {name : μ → ι}
    (hname : ∀ j ∈ M.hosts, ∀ o ∈ (w.host j).outs, ∀ m, o.msg = some m → P m = true → name m = j)
    (hone : ∀ j ∈ M.hosts, (w.host j).outs.countP (Out.carries P) ≤ 1) {k : ℕ}
    (hk : k ≤ (w.host i).received.countP P) :
    ∃ S ⊆ M.hosts.toFinset, k ≤ S.card ∧
      ∀ j ∈ S, ∃ m ∈ (w.host i).received, P m = true ∧ name m = j := by
  classical
  have hsrc : ∀ m ∈ (w.host i).received, P m = true → name m ∈ M.hosts := by
    intro m hm hP
    obtain ⟨j, hj, o, ho, hom⟩ := h.sender hi hm
    rw [hname j hj o ho m (Out.msg_of_msgTo hom) hP]
    exact hj
  have hle : ∀ j ∈ M.hosts,
      (w.host i).received.countP (fun m => P m && decide (name m = j)) ≤ 1 := by
    intro j hj
    refine h.received_le_one hi (a := j) (fun j' hj' hne => ?_) ?_
    · refine List.countP_eq_zero.2 fun o ho hc => ?_
      obtain ⟨m, hm, hP⟩ := Out.carries_iff.1 hc
      rw [Bool.and_eq_true, decide_eq_true_eq] at hP
      exact hne ((hname j' hj' o ho m hm hP.1).symm.trans hP.2)
    · refine (List.countP_mono_left fun o _ hc => ?_).trans (hone j hj)
      obtain ⟨m, hm, hP⟩ := Out.carries_iff.1 hc
      rw [Bool.and_eq_true] at hP
      exact Out.carries_iff.2 ⟨m, hm, hP.1⟩
  refine ⟨(((w.host i).received.filter P).map name).toFinset, fun j hj => ?_, ?_, fun j hj => ?_⟩
  · obtain ⟨m, hm, rfl⟩ := List.mem_map.1 (List.mem_toFinset.1 hj)
    obtain ⟨hm, hP⟩ := List.mem_filter.1 hm
    exact List.mem_toFinset.2 (hsrc m hm hP)
  · have hnd : (((w.host i).received.filter P).map name).Nodup := by
      refine List.nodup_iff_count_le_one.2 fun j => ?_
      by_cases hj : j ∈ ((w.host i).received.filter P).map name
      · obtain ⟨m, hm, rfl⟩ := List.mem_map.1 hj
        obtain ⟨hm, hP⟩ := List.mem_filter.1 hm
        have hcount := hle (name m) (hsrc m hm hP)
        rw [List.count, List.countP_map, List.countP_filter]
        refine le_trans (le_of_eq (List.countP_congr fun x _ => ?_)) hcount
        simp [and_comm]
      · rw [List.count_eq_zero_of_not_mem hj]
        exact Nat.zero_le _
    rw [List.toFinset_card_of_nodup hnd, List.length_map, ← List.countP_eq_length_filter]
    exact hk
  · obtain ⟨m, hm, rfl⟩ := List.mem_map.1 (List.mem_toFinset.1 hj)
    obtain ⟨hm, hP⟩ := List.mem_filter.1 hm
    exact ⟨m, hm, hP, rfl⟩

/-- **Induction over sent messages.** If every host sends only messages with the property, given
that all it has received have it, then all messages ever sent have it. The property may speak of the
host that the message goes to. -/
theorem Reach.sent_induction {P : World ι σ μ ω → ι → μ → Prop}
    (hmono : ∀ w w' i m, Later w w' → P w i m → P w' i m)
    (hnew : ∀ w, M.Reach G w → ∀ j ∈ M.hosts, (∀ m ∈ (w.host j).received, P w j m) →
      ∀ o ∈ (w.host j).outs, ∀ i m, o.msgTo j i = some m → P w i m)
    {w : World ι σ μ ω} (h : M.Reach G w) :
    ∀ j ∈ M.hosts, ∀ o ∈ (w.host j).outs, ∀ i m, o.msgTo j i = some m → P w i m := by
  induction h with
  | refl => intro j _ o ho; simp [world, start] at ho
  | @tail w w' hw hs ih =>
    have hr' : M.Reach G w' := Relation.ReflTransGen.tail hw hs
    have hold : ∀ i ∈ M.hosts, ∀ m ∈ (w.host i).received, P w' i m := by
      intro i hi m hm
      obtain ⟨j, hj, o, ho, hom⟩ := Reach.sender hw hi hm
      exact hmono w w' i m hs.later (ih j hj o ho i m hom)
    intro i hi
    refine hnew w' hr' i hi fun m hm => ?_
    cases hs with
    | @deliver k j m' r hk hg hr =>
      by_cases hij : i = j
      · subst hij
        obtain ⟨⟨s, os⟩, -, rfl⟩ := Option.map_eq_some_iff.1 hr
        rw [put_host_self] at hm
        rcases List.mem_append.1 hm with hm | hm
        · exact hold i hi m hm
        · -- the message delivered in this step: it was in flight, so it had been sent
          rw [List.mem_singleton] at hm
          subst hm
          obtain ⟨j, hj, o, ho, hom⟩ := Reach.sender_inFlight hw (List.mem_of_getElem? hk)
          exact hmono w _ i m (Later.put hr) (ih j hj o ho i m hom)
      · rw [put_host_ne _ _ _ hij] at hm
        exact hold i hi m hm
    | @act j a r hj hg hr =>
      by_cases hij : i = j
      · subst hij
        obtain ⟨⟨s, os⟩, -, rfl⟩ := Option.map_eq_some_iff.1 hr
        rw [put_host_self] at hm
        exact hold i hi m hm
      · rw [put_host_ne _ _ _ hij] at hm
        exact hold i hi m hm

theorem Reach.received_induction {P : World ι σ μ ω → ι → μ → Prop}
    (hmono : ∀ w w' i m, Later w w' → P w i m → P w' i m)
    (hnew : ∀ w, M.Reach G w → ∀ j ∈ M.hosts, (∀ m ∈ (w.host j).received, P w j m) →
      ∀ o ∈ (w.host j).outs, ∀ i m, o.msgTo j i = some m → P w i m)
    {w : World ι σ μ ω} (h : M.Reach G w) : ∀ i ∈ M.hosts, ∀ m ∈ (w.host i).received, P w i m := by
  intro i hi m hm
  obtain ⟨j, hj, o, ho, hom⟩ := h.sender hi hm
  exact h.sent_induction hmono hnew j hj o ho i m hom

end Machine

end S2Pac.Lib
