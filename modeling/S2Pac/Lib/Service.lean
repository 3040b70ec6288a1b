import Mathlib.Algebra.Order.Group.Multiset
import Mathlib.Data.Multiset.MapFold
import Mathlib.Data.List.Infix
import Mathlib.Data.List.Nodup
import Mathlib.Logic.Relation
import Mathlib.Tactic.Abel
import Mathlib.Tactic.Common

/-!
# A server behind a channel

Callers put their requests on a channel, each with a channel of its own for the answer, and wait for it. One
goroutine takes the requests off, works on them one at a time and answers; for some kinds of requests it
starts a goroutine that does the same, and takes the next one.

`Linearizes` is what the callers may rely on: there is an order of the requests in which a single caller
would have been given the same answers one after the other, and in which a request that was answered before
another one was made comes first. `Service.Reach.linearizes`: the server keeps to it in every run. Without
new calls every run ends (`Service.step_wellFounded`), and it ends with every call answered
(`Service.Inv.answered_of_stuck`).
-/

namespace S2Pac.Lib

/-! ## Histories -/

/-- What the callers see. The key tells the calls apart. -/
inductive Episode (κ ρ β : Type) where
  | call (k : κ) (r : ρ)
  | ret (k : κ) (b : β)

section Sequential

variable {κ ρ σ β : Type}

/-- The requests of `l`, one after the other, take the state `s` to `s'` and are given the answers in
`l`. -/
inductive Legal (op : σ → ρ → σ × β) (s : σ) : List (κ × ρ × β) → σ → Prop
  | nil : Legal op s [] s
  | snoc {l : List (κ × ρ × β)} {s' : σ} (k : κ) (r : ρ) : Legal op s l s' →
      Legal op s (l ++ [(k, r, (op s' r).2)]) (op s' r).1

/-- Every answer is the one of a state that the requests before it lead to. -/
theorem Legal.answer {op : σ → ρ → σ × β} {s s' : σ} {l l₁ l₂ : List (κ × ρ × β)} {k : κ} {r : ρ} {b : β}
    (h : Legal op s l s') (hl : l = l₁ ++ (k, r, b) :: l₂) :
    ∃ s₁, Legal op s l₁ s₁ ∧ b = (op s₁ r).2 := by
  induction h generalizing l₂ with
  | nil => simp at hl
  | @snoc l s' k' r' h ih =>
    rcases List.eq_nil_or_concat l₂ with rfl | ⟨l₂, y, rfl⟩
    · obtain ⟨rfl, hx⟩ := List.append_inj' hl rfl
      cases hx
      exact ⟨s', h, rfl⟩
    · rw [List.concat_eq_append, ← List.cons_append, ← List.append_assoc] at hl
      exact ih (List.append_inj' hl rfl).1

/-- **The history is explained by the order `l` of the calls.** -/
structure Linearizes (op : σ → ρ → σ × β) (s : σ) (h : List (Episode κ ρ β)) (l : List (κ × ρ × β)) :
    Prop where
  legal : ∃ s', Legal op s l s'
  once : (l.map Prod.fst).Nodup
  called : ∀ x ∈ l, .call x.1 x.2.1 ∈ h
  returned : ∀ k b, .ret k b ∈ h → ∃ r, (k, r, b) ∈ l
  /-- A call that had returned before another one was made comes before it. -/
  before : ∀ h₁ h₂, h = h₁ ++ h₂ → ∀ k b, .ret k b ∈ h₁ → ∀ x ∈ l, .call x.1 x.2.1 ∉ h₁ →
    ∃ r l₁ l₂, l = l₁ ++ x :: l₂ ∧ (k, r, b) ∈ l₁

/-- Every moment of the history is one of the order: what has returned by then is among the calls of the
order up to a point, all of which have been made. -/
def Cut (h : List (Episode κ ρ β)) (l : List (κ × ρ × β)) : Prop :=
  ∀ h₁, h₁ <+: h → ∃ l₁, l₁ <+: l ∧ (∀ k b, .ret k b ∈ h₁ → ∃ r, (k, r, b) ∈ l₁) ∧
    ∀ x ∈ l₁, .call x.1 x.2.1 ∈ h₁

theorem Cut.before {h : List (Episode κ ρ β)} {l : List (κ × ρ × β)} (hc : Cut h l)
    {h₁ h₂ : List (Episode κ ρ β)} (hh : h = h₁ ++ h₂) {k : κ} {b : β} (hret : .ret k b ∈ h₁)
    {x : κ × ρ × β} (hx : x ∈ l) (hcall : .call x.1 x.2.1 ∉ h₁) :
    ∃ r l₁ l₂, l = l₁ ++ x :: l₂ ∧ (k, r, b) ∈ l₁ := by
  obtain ⟨l₁, ⟨l₂, rfl⟩, hreturned, hcalled⟩ := hc h₁ ⟨h₂, hh.symm⟩
  obtain ⟨r, hr⟩ := hreturned k b hret
  rcases List.mem_append.1 hx with hx | hx
  · exact absurd (hcalled x hx) hcall
  · obtain ⟨l₃, l₄, rfl⟩ := List.append_of_mem hx
    exact ⟨r, l₁ ++ l₃, l₄, by simp, List.mem_append_left _ hr⟩

theorem Cut.snoc_order {h : List (Episode κ ρ β)} {l : List (κ × ρ × β)} (hc : Cut h l)
    (x : κ × ρ × β) : Cut h (l ++ [x]) := by
  intro h₁ hh
  obtain ⟨l₁, hl, hrest⟩ := hc h₁ hh
  exact ⟨l₁, hl.trans (List.prefix_append _ _), hrest⟩

theorem Cut.snoc_history {h : List (Episode κ ρ β)} {l : List (κ × ρ × β)} (hc : Cut h l)
    {e : Episode κ ρ β} (hcalled : ∀ x ∈ l, .call x.1 x.2.1 ∈ h)
    (hreturned : ∀ k b, .ret k b ∈ h ++ [e] → ∃ r, (k, r, b) ∈ l) : Cut (h ++ [e]) l := by
  intro h₁ hh
  rcases List.prefix_concat_iff.1 hh with rfl | hh
  · exact ⟨l, List.prefix_refl _, hreturned, fun x hx => List.mem_append_left _ (hcalled x hx)⟩
  · exact hc h₁ hh

end Sequential

/-! ## The server -/

/-- The code of the server: what a request does, the requests for which it starts a goroutine, and the
capacity of its channel. -/
structure Server (ρ σ β : Type) where
  op : σ → ρ → σ × β
  apart : ρ → Bool
  cap : ℕ
  room : 0 < cap

/-- Where the server is. -/
inductive ServerPc (κ ρ β : Type) where
  | idle
  | serving (k : κ) (r : ρ)
  | answering (k : κ) (b : β)

/-- The server and its callers. -/
structure Service (κ ρ σ β : Type) where
  state : σ
  /-- The calls that are to be put on the channel. -/
  calling : Multiset (κ × ρ)
  reqCh : List (κ × ρ)
  pc : ServerPc κ ρ β
  /-- The goroutines that the server has started, before and after they have worked on their request. -/
  spawned : Multiset (κ × ρ)
  finishing : Multiset (κ × β)
  /-- What is on the channels for the answers. -/
  done : Multiset (κ × β)
  history : List (Episode κ ρ β)
  /-- The calls in the order in which they were worked on. -/
  order : List (κ × ρ × β)

namespace Service

variable {κ ρ σ β : Type} (V : Server ρ σ β)

/-- Before the first call. -/
def start (s : σ) : Service κ ρ σ β := ⟨s, 0, [], .idle, 0, 0, 0, [], []⟩

/-- There is room for the answer: the channel of a call holds one. -/
def Room (S : Service κ ρ σ β) (k : κ) : Prop := ∀ b, (k, b) ∉ S.done

/-- **One step that is no new call.** -/
inductive Step : Service κ ρ σ β → Service κ ρ σ β → Prop
  /-- A caller puts its request on the channel. -/
  | put {S : Service κ ρ σ β} {k : κ} {r : ρ} {rest : Multiset (κ × ρ)} : S.calling = (k, r) ::ₘ rest →
      S.reqCh.length < V.cap → Step S { S with calling := rest, reqCh := S.reqCh ++ [(k, r)] }
  /-- The server takes a request, -/
  | take {S : Service κ ρ σ β} {k : κ} {r : ρ} {rest : List (κ × ρ)} : S.pc = .idle →
      S.reqCh = (k, r) :: rest → Step S { S with reqCh := rest, pc := .serving k r }
  /-- starts a goroutine for it, -/
  | spawn {S : Service κ ρ σ β} {k : κ} {r : ρ} : S.pc = .serving k r → V.apart r = true →
      Step S { S with pc := .idle, spawned := (k, r) ::ₘ S.spawned }
  /-- or works on it itself, -/
  | serve {S : Service κ ρ σ β} {k : κ} {r : ρ} : S.pc = .serving k r → V.apart r = false →
      Step S { S with
        state := (V.op S.state r).1
        pc := .answering k (V.op S.state r).2
        order := S.order ++ [(k, r, (V.op S.state r).2)] }
  /-- and answers. -/
  | answer {S : Service κ ρ σ β} {k : κ} {b : β} : S.pc = .answering k b → S.Room k →
      Step S { S with pc := .idle, done := (k, b) ::ₘ S.done }
  /-- A goroutine works on its request, -/
  | toil {S : Service κ ρ σ β} {k : κ} {r : ρ} {rest : Multiset (κ × ρ)} :
      S.spawned = (k, r) ::ₘ rest → Step S { S with
        state := (V.op S.state r).1
        spawned := rest
        finishing := (k, (V.op S.state r).2) ::ₘ S.finishing
        order := S.order ++ [(k, r, (V.op S.state r).2)] }
  /-- and answers. -/
  | finish {S : Service κ ρ σ β} {k : κ} {b : β} {rest : Multiset (κ × β)} :
      S.finishing = (k, b) ::ₘ rest → S.Room k →
      Step S { S with finishing := rest, done := (k, b) ::ₘ S.done }
  /-- A caller gets its answer. -/
  | ret {S : Service κ ρ σ β} {k : κ} {b : β} {rest : Multiset (κ × β)} : S.done = (k, b) ::ₘ rest →
      Step S { S with done := rest, history := S.history ++ [.ret k b] }

/-- A step, or a new call: every call has a request and a channel of its own. -/
inductive Move : Service κ ρ σ β → Service κ ρ σ β → Prop
  | step {S S' : Service κ ρ σ β} : Step V S S' → Move S S'
  | call {S : Service κ ρ σ β} {k : κ} (r : ρ) : (∀ r', .call k r' ∉ S.history) →
      Move S { S with calling := (k, r) ::ₘ S.calling, history := S.history ++ [.call k r] }

/-- The states that can be reached. -/
abbrev Reach (s : σ) (S : Service κ ρ σ β) : Prop := Relation.ReflTransGen (Move V) (start s) S

variable {V} in
theorem Reach.steps {s : σ} {S S' : Service κ ρ σ β} (hS : Reach V s S)
    (hsteps : Relation.ReflTransGen (Step V) S S') : Reach V s S' :=
  hS.trans (Relation.ReflTransGen.mono (fun _ _ h => Move.step h) _ _ hsteps)

end Service

/-! ## Every call is in one place -/

namespace Episode

variable {κ ρ β : Type}

/-- The calls of a history, -/
def calls (h : List (Episode κ ρ β)) : Multiset (κ × ρ) :=
  ↑(h.filterMap fun e =>
    match e with
    | .call k r => some (k, r)
    | .ret _ _ => none)

/-- and what was returned. -/
def returns (h : List (Episode κ ρ β)) : Multiset (κ × β) :=
  ↑(h.filterMap fun e =>
    match e with
    | .call _ _ => none
    | .ret k b => some (k, b))

@[simp] theorem calls_nil : calls ([] : List (Episode κ ρ β)) = 0 := rfl

@[simp] theorem returns_nil : returns ([] : List (Episode κ ρ β)) = 0 := rfl

@[simp] theorem calls_snoc_call (h : List (Episode κ ρ β)) (k : κ) (r : ρ) :
    calls (h ++ [.call k r]) = calls h + {(k, r)} := by
  simp [calls, ← Multiset.coe_add]

@[simp] theorem calls_snoc_ret (h : List (Episode κ ρ β)) (k : κ) (b : β) :
    calls (h ++ [.ret k b]) = calls h := by
  simp [calls]

@[simp] theorem returns_snoc_call (h : List (Episode κ ρ β)) (k : κ) (r : ρ) :
    returns (h ++ [.call k r]) = returns h := by
  simp [returns]

@[simp] theorem returns_snoc_ret (h : List (Episode κ ρ β)) (k : κ) (b : β) :
    returns (h ++ [.ret k b]) = returns h + {(k, b)} := by
  simp [returns, ← Multiset.coe_add]

theorem mem_calls {h : List (Episode κ ρ β)} {k : κ} {r : ρ} :
    (k, r) ∈ calls h ↔ .call k r ∈ h := by
  simp only [calls, Multiset.mem_coe, List.mem_filterMap]
  constructor
  · rintro ⟨e, he, h'⟩
    cases e with
    | call k' r' =>
      cases h'
      exact he
    | ret k' b' => cases h'
  · exact fun he => ⟨_, he, rfl⟩

theorem mem_returns {h : List (Episode κ ρ β)} {k : κ} {b : β} :
    (k, b) ∈ returns h ↔ .ret k b ∈ h := by
  simp only [returns, Multiset.mem_coe, List.mem_filterMap]
  constructor
  · rintro ⟨e, he, h'⟩
    cases e with
    | call k' r' => cases h'
    | ret k' b' =>
      cases h'
      exact he
  · exact fun he => ⟨_, he, rfl⟩

end Episode

namespace ServerPc

variable {κ ρ β : Type}

/-- The request that the server is at, -/
def request : ServerPc κ ρ β → Multiset (κ × ρ)
  | .serving k r => {(k, r)}
  | _ => 0

/-- or the answer. -/
def answer : ServerPc κ ρ β → Multiset (κ × β)
  | .answering k b => {(k, b)}
  | _ => 0

end ServerPc

namespace Service

variable {κ ρ σ β : Type} {V : Server ρ σ β} {S S' : Service κ ρ σ β} {s : σ}

/-- The calls that nobody has worked on. -/
def unserved (S : Service κ ρ σ β) : Multiset (κ × ρ) :=
  S.calling + ↑S.reqCh + S.pc.request + S.spawned

/-- The answers, on their way and returned. -/
def answers (S : Service κ ρ σ β) : Multiset (κ × β) :=
  S.pc.answer + S.finishing + S.done + Episode.returns S.history

/-- **What holds in every state**: a call waits to be worked on or is in the order, and each call of the
order has its answer on its way or back. -/
structure Inv (V : Server ρ σ β) (s : σ) (S : Service κ ρ σ β) : Prop where
  calls : S.unserved + ↑(S.order.map fun x => (x.1, x.2.1)) = Episode.calls S.history
  answers : S.answers = ↑(S.order.map fun x => (x.1, x.2.2))
  keys : ((Episode.calls S.history).map Prod.fst).Nodup
  legal : Legal V.op s S.order S.state
  cut : Cut S.history S.order

theorem Inv.start : (start s : Service κ ρ σ β).Inv V s where
  calls := by simp [Service.start, unserved, ServerPc.request]
  answers := by simp [Service.start, Service.answers, ServerPc.answer]
  keys := by simp [Service.start]
  legal := Legal.nil
  cut h₁ hh := by
    obtain rfl := List.prefix_nil.1 hh
    exact ⟨[], List.prefix_refl _, fun _ _ h => absurd h List.not_mem_nil,
      fun _ h => absurd h List.not_mem_nil⟩

theorem Inv.called (hS : S.Inv V s) {x : κ × ρ × β} (hx : x ∈ S.order) :
    .call x.1 x.2.1 ∈ S.history := by
  rw [← Episode.mem_calls, ← hS.calls]
  exact Multiset.mem_add.2 (Or.inr (List.mem_map.2 ⟨x, hx, rfl⟩))

theorem Inv.ordered (hS : S.Inv V s) {k : κ} {b : β} (h : (k, b) ∈ S.answers) :
    ∃ r, (k, r, b) ∈ S.order := by
  rw [hS.answers] at h
  obtain ⟨⟨k', r, b'⟩, hx, he⟩ := List.mem_map.1 h
  cases he
  exact ⟨r, hx⟩

theorem Step.inv (h : Step V S S') (hS : S.Inv V s) : S'.Inv V s := by
  obtain ⟨hcalls, hanswers, hkeys, hlegal, hcut⟩ := id hS
  cases h with
  | put hk hroom =>
    refine ⟨?_, hanswers, hkeys, hlegal, hcut⟩
    rw [← hcalls]
    simp only [unserved, hk, ← Multiset.coe_add, ← Multiset.singleton_add, Multiset.coe_singleton]
    abel
  | take hpc hch =>
    refine ⟨?_, ?_, hkeys, hlegal, hcut⟩
    · rw [← hcalls]
      simp only [unserved, hpc, hch, ServerPc.request, ← Multiset.cons_coe, ← Multiset.singleton_add]
      abel
    · rw [← hanswers]
      simp only [Service.answers, hpc, ServerPc.answer]
  | spawn hpc hr =>
    refine ⟨?_, ?_, hkeys, hlegal, hcut⟩
    · rw [← hcalls]
      simp only [unserved, hpc, ServerPc.request, ← Multiset.singleton_add]
      abel
    · rw [← hanswers]
      simp only [Service.answers, hpc, ServerPc.answer]
  | @serve k r hpc hr =>
    refine ⟨?_, ?_, hkeys, hlegal.snoc k r, hcut.snoc_order _⟩
    · rw [← hcalls]
      simp only [unserved, hpc, ServerPc.request, List.map_append, List.map_cons, List.map_nil,
        ← Multiset.coe_add, Multiset.coe_singleton]
      abel
    · simp only [Service.answers, hpc, ServerPc.answer, List.map_append, List.map_cons, List.map_nil,
        ← Multiset.coe_add, Multiset.coe_singleton, ← hanswers]
      abel
  | answer hpc hroom =>
    refine ⟨?_, ?_, hkeys, hlegal, hcut⟩
    · rw [← hcalls]
      simp only [unserved, hpc, ServerPc.request]
    · rw [← hanswers]
      simp only [Service.answers, hpc, ServerPc.answer, ← Multiset.singleton_add]
      abel
  | @toil k r rest hk =>
    refine ⟨?_, ?_, hkeys, hlegal.snoc k r, hcut.snoc_order _⟩
    · rw [← hcalls]
      simp only [unserved, hk, List.map_append, List.map_cons, List.map_nil,
        ← Multiset.coe_add, Multiset.coe_singleton, ← Multiset.singleton_add]
      abel
    · simp only [Service.answers, List.map_append, List.map_cons, List.map_nil,
        ← Multiset.coe_add, Multiset.coe_singleton, ← Multiset.singleton_add, ← hanswers]
      abel
  | finish hk hroom =>
    refine ⟨hcalls, ?_, hkeys, hlegal, hcut⟩
    rw [← hanswers]
    simp only [Service.answers, hk, ← Multiset.singleton_add]
    abel
  | @ret k b rest hk =>
    have hanswers' : ({ S with done := rest, history := S.history ++ [.ret k b] } :
        Service κ ρ σ β).answers = ↑(S.order.map fun x => (x.1, x.2.2)) := by
      rw [← hanswers]
      simp only [Service.answers, hk, Episode.returns_snoc_ret, ← Multiset.singleton_add]
      abel
    refine ⟨?_, hanswers', ?_, hlegal, hcut.snoc_history (fun x hx => hS.called hx) ?_⟩
    · simpa [unserved] using hcalls
    · simpa using hkeys
    · -- the answer was there before it was returned
      intro k' b' hret
      rw [← Episode.mem_returns, Episode.returns_snoc_ret, Multiset.mem_add, Multiset.mem_singleton] at hret
      refine hS.ordered ?_
      rw [Service.answers, hk]
      rcases hret with hret | hret
      · exact Multiset.mem_add.2 (Or.inr hret)
      · simp [hret]

theorem Move.inv (h : Move V S S') (hS : S.Inv V s) : S'.Inv V s := by
  cases h with
  | step h => exact h.inv hS
  | @call k r hfresh =>
    refine ⟨?_, ?_, ?_, hS.legal, hS.cut.snoc_history (fun x hx => hS.called hx) ?_⟩
    · rw [Episode.calls_snoc_call, ← hS.calls]
      simp only [unserved, ← Multiset.singleton_add]
      abel
    · rw [← hS.answers]
      simp only [Service.answers, Episode.returns_snoc_call]
    · rw [Episode.calls_snoc_call, Multiset.add_comm, Multiset.singleton_add, Multiset.map_cons,
        Multiset.nodup_cons]
      refine ⟨fun hk => ?_, hS.keys⟩
      obtain ⟨⟨k', r'⟩, hmem, rfl⟩ := Multiset.mem_map.1 hk
      exact hfresh r' (Episode.mem_calls.1 hmem)
    · intro k' b' hret
      rw [← Episode.mem_returns, Episode.returns_snoc_call] at hret
      exact hS.ordered (Multiset.mem_add.2 (Or.inr hret))

theorem Reach.inv (hS : Reach V s S) : S.Inv V s := by
  induction hS with
  | refl => exact Inv.start
  | tail _ h ih => exact h.inv ih

theorem Inv.order_nodup (hS : S.Inv V s) : (S.order.map Prod.fst).Nodup := by
  have hle : ((S.order.map Prod.fst : List κ) : Multiset κ) ≤ (Episode.calls S.history).map Prod.fst := by
    rw [← hS.calls, Multiset.map_add]
    refine le_of_eq_of_le ?_ (Multiset.le_add_left _ _)
    rw [Multiset.map_coe, List.map_map]
    rfl
  exact Multiset.coe_nodup.1 (Multiset.nodup_of_le hle hS.keys)

theorem Inv.answers_nodup (hS : S.Inv V s) : (S.answers.map Prod.fst).Nodup := by
  rw [hS.answers, Multiset.map_coe, List.map_map]
  exact Multiset.coe_nodup.2 hS.order_nodup

/-- A key stands for one call, -/
theorem Inv.call_unique (hS : S.Inv V s) {k : κ} {r r' : ρ} (h : .call k r ∈ S.history)
    (h' : .call k r' ∈ S.history) : r = r' := by
  by_contra hne
  obtain ⟨rest, hrest⟩ := Multiset.exists_cons_of_mem (Episode.mem_calls.2 h)
  have hmem : (k, r') ∈ rest := by
    have hmem := Episode.mem_calls.2 h'
    rw [hrest, Multiset.mem_cons] at hmem
    exact hmem.resolve_left fun he => hne (Prod.mk.inj he).2.symm
  have hkeys := hS.keys
  rw [hrest, Multiset.map_cons, Multiset.nodup_cons] at hkeys
  exact hkeys.1 (Multiset.mem_map.2 ⟨(k, r'), hmem, rfl⟩)

/-- and returns once. -/
theorem Inv.returns_nodup (hS : S.Inv V s) : ((Episode.returns S.history).map Prod.fst).Nodup := by
  have hnodup := hS.answers_nodup
  rw [Service.answers, Multiset.map_add] at hnodup
  exact (Multiset.nodup_add.1 hnodup).2.1

/-- **The server is linearizable.** -/
theorem Reach.linearizes (hS : Reach V s S) : Linearizes V.op s S.history S.order where
  legal := ⟨S.state, hS.inv.legal⟩
  once := hS.inv.order_nodup
  called _ hx := hS.inv.called hx
  returned _ _ h := hS.inv.ordered (Multiset.mem_add.2 (Or.inr (Episode.mem_returns.2 h)))
  before _ _ hh _ _ hret _ hx hcall := hS.inv.cut.before hh hret hx hcall

/-! ## Every call is answered -/

/-- **Nobody waits to answer**: the channel of a call is empty until then. -/
theorem Inv.room (hS : S.Inv V s) {k : κ} {b : β} (h : (k, b) ∈ S.pc.answer + S.finishing) : S.Room k := by
  intro b' hb'
  have hnodup := hS.answers_nodup
  rw [Service.answers, add_assoc, Multiset.map_add] at hnodup
  have hdisjoint := (Multiset.nodup_add.1 hnodup).2.2
  refine Multiset.disjoint_left.1 hdisjoint (Multiset.mem_map_of_mem Prod.fst h) ?_
  exact Multiset.mem_map.2 ⟨(k, b'), Multiset.mem_add.2 (Or.inl hb'), rfl⟩

/-- How many steps the calls have before them. -/
def weight (S : Service κ ρ σ β) : ℕ :=
  6 * S.calling.card + 5 * S.reqCh.length + (4 * S.pc.request.card + 2 * S.pc.answer.card) +
    3 * S.spawned.card + 2 * S.finishing.card + S.done.card

theorem Step.weight_lt (h : Step V S S') : S'.weight < S.weight := by
  cases h with
  | put hk _ =>
    simp only [weight, hk, Multiset.card_cons, List.length_append, List.length_singleton]
    omega
  | take hpc hch =>
    simp only [weight, hpc, hch, ServerPc.request, ServerPc.answer, Multiset.card_zero,
      Multiset.card_singleton, List.length_cons]
    omega
  | spawn hpc _ =>
    simp only [weight, hpc, ServerPc.request, ServerPc.answer, Multiset.card_zero,
      Multiset.card_singleton, Multiset.card_cons]
    omega
  | serve hpc _ =>
    simp only [weight, hpc, ServerPc.request, ServerPc.answer, Multiset.card_zero,
      Multiset.card_singleton]
    omega
  | answer hpc _ =>
    simp only [weight, hpc, ServerPc.request, ServerPc.answer, Multiset.card_zero,
      Multiset.card_singleton, Multiset.card_cons]
    omega
  | toil hk =>
    simp only [weight, hk, Multiset.card_cons]
    omega
  | finish hk _ =>
    simp only [weight, hk, Multiset.card_cons]
    omega
  | ret hk =>
    simp only [weight, hk, Multiset.card_cons]
    omega

/-- **Without new calls every run ends.** -/
theorem step_wellFounded (V : Server ρ σ β) :
    WellFounded fun S' S : Service κ ρ σ β => Step V S S' :=
  Subrelation.wf (fun h => Step.weight_lt h) (measure weight).wf

theorem Inv.idle_of_stuck (hS : S.Inv V s) (hstuck : ∀ S', ¬ Step V S S') :
    S.unserved = 0 ∧ S.pc.answer + S.finishing + S.done = 0 := by
  have hspawned : S.spawned = 0 := by
    refine Multiset.eq_zero_of_forall_notMem fun x hx => ?_
    obtain ⟨rest, hrest⟩ := Multiset.exists_cons_of_mem hx
    exact hstuck _ (Step.toil hrest)
  have hfinishing : S.finishing = 0 := by
    refine Multiset.eq_zero_of_forall_notMem fun x hx => ?_
    obtain ⟨rest, hrest⟩ := Multiset.exists_cons_of_mem hx
    exact hstuck _ (Step.finish hrest (hS.room (Multiset.mem_add.2 (Or.inr hx))))
  have hdone : S.done = 0 := by
    refine Multiset.eq_zero_of_forall_notMem fun x hx => ?_
    obtain ⟨rest, hrest⟩ := Multiset.exists_cons_of_mem hx
    exact hstuck _ (Step.ret hrest)
  have hpc : S.pc = .idle := by
    cases hpc : S.pc with
    | idle => rfl
    | serving k r =>
      cases hr : V.apart r with
      | true => exact absurd (Step.spawn hpc hr) (hstuck _)
      | false => exact absurd (Step.serve hpc hr) (hstuck _)
    | answering k b =>
      refine absurd (Step.answer hpc (hS.room (b := b) ?_)) (hstuck _)
      simp [hpc, ServerPc.answer]
  have hch : S.reqCh = [] := by
    cases hch : S.reqCh with
    | nil => rfl
    | cons x rest => exact absurd (Step.take hpc hch) (hstuck _)
  have hcalling : S.calling = 0 := by
    refine Multiset.eq_zero_of_forall_notMem fun x hx => ?_
    obtain ⟨rest, hrest⟩ := Multiset.exists_cons_of_mem hx
    refine hstuck _ (Step.put hrest ?_)
    rw [hch]
    exact V.room
  simp [unserved, hcalling, hch, hpc, hspawned, hfinishing, hdone, ServerPc.request, ServerPc.answer]

/-- **Where no step is left every call has been answered.** -/
theorem Inv.answered_of_stuck (hS : S.Inv V s) (hstuck : ∀ S', ¬ Step V S S') {k : κ} {r : ρ}
    (hcall : .call k r ∈ S.history) : ∃ b, .ret k b ∈ S.history := by
  obtain ⟨hunserved, hway⟩ := hS.idle_of_stuck hstuck
  have hmem := Episode.mem_calls.2 hcall
  rw [← hS.calls, hunserved, zero_add] at hmem
  obtain ⟨⟨k', r', b⟩, hx, he⟩ := List.mem_map.1 hmem
  cases he
  have hanswer : (k', b) ∈ S.answers := by
    rw [hS.answers]
    exact List.mem_map.2 ⟨_, hx, rfl⟩
  rw [Service.answers, hway, zero_add] at hanswer
  exact ⟨b, Episode.mem_returns.1 hanswer⟩

end Service

end S2Pac.Lib
