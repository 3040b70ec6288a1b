import S2Pac.Core.Rounds
import S2Pac.Lib.Faults
import S2Pac.Quorums

/-!
# The coin of the lean protocol among faulty nodes

A node learns the leader of a view from its own elector, or from the first `RandomCoinMsg` of the view
that bears the signature of its author. The elector names one leader (`Elected.unique`), and a node that
follows the code passes on the one its elector has named. A `RandomCoinMsg` carries nothing to check the
leader by, so that a faulty node can name whom it likes, to every node another (`coins_differ`).
-/

set_option linter.unusedSectionVars false

namespace S2Pac

open Lib

variable {D : Type} [DecidableEq D]

/-- The message is one that node `i` can sign. The author of an `ElectMsg` is not signed. -/
def Msg.ownKey (i : NodeID) : Msg D → Bool
  | .elect _ => true
  | m => decide (m.author = i)

namespace Core

variable {E : Env D} {self : NodeID} {h : NodeHost D (SpbJob D)}

variable (E) in
/-- The lean protocol where the nodes `bad` are faulty. They send any message that they can sign. -/
def faultyMachine (bad : List NodeID) :
    Machine NodeID (Node D (SpbJob D)) (Msg D) (FaultyAct NodeID (Msg D) Act) (Event D) :=
  (machine E).withFaulty bad Msg.ownKey

variable (E) in
/-- **The runs in which the faulty nodes tell no wrong coins**: when a node that follows the code takes
up a `RandomCoinMsg` of a faulty node, it names a leader that shares of the view combine to. -/
def TrueCoins (bad : List NodeID) :
    Machine.Guard NodeID (Node D (SpbJob D)) (Msg D) (FaultyAct NodeID (Msg D) Act) (Event D) :=
  fun i h x =>
    match x with
    | .recv (.randomCoin r) => i ∉ bad → r.author ∈ bad → r.verify E = some true →
        h.st.coinViewFlags r.view = false → Elected E r.leader r.view
    | _ => True

theorem verify_of_told {c c' : Node D (SpbJob D)} {r : RandomCoinMsg} {os : List (NodeOut D)}
    (hr : recv E self c (.randomCoin r) = some (c', os)) {leader : NodeID} {view : ℤ}
    (hc : Tossing c' leader view) (hn : ¬ Tossing c leader view) : r.verify E = some true := by
  have hr := (handle_of_recv hr).2
  simp only [handle, handleCoinMsg, Node.verified] at hr
  split at hr
  · cases hr
    exact absurd hc hn
  · cases hr
    exact absurd hc hn
  · next hv => exact hv

/-- **The leader of a coin that a node tosses is one that shares combine to**, if that is so of the
coins it takes up. -/
theorem elected_of_tossing
    {G : Machine.Guard NodeID (Node D (SpbJob D)) (Msg D) Act (Event D)}
    (hl : (machine E).Local G self h)
    (hcoin : ∀ h₀ r, G self h₀ (.recv (.randomCoin r)) → Msg.randomCoin r ∈ h.received →
      r.verify E = some true → h₀.st.coinViewFlags r.view = false → Elected E r.leader r.view)
    {leader : NodeID} {view : ℤ} (hc : Tossing h.st leader view) : Elected E leader view := by
  induction hl with
  | start => exact hc.elim
  | @recv h m s o _ hg hs ih =>
    have hold := ih fun h₀ r hg hr => hcoin h₀ r hg (List.mem_append_left _ hr)
    by_cases hn : Tossing h.st leader view
    · exact hold hn
    · rcases (turns.recv _ _ _ _ hs).tossing hc with
        hc' | ⟨e, hadd, hne, rfl⟩ | ⟨r, hx, hflag, rfl, rfl⟩
      · exact absurd hc' hn
      · exact elected_of_add hadd hne
      · obtain rfl := Input.recv.inj hx
        exact hcoin h r hg (by simp) (verify_of_told hs hc hn) hflag
  | @act h a s o _ hg hs ih =>
    rcases (turns.act _ _ _ _ hs).tossing hc with hc' | ⟨e, hadd, hne, rfl⟩ | ⟨r, hx, -⟩
    · exact ih hcoin hc'
    · exact elected_of_add hadd hne
    · cases hx

section World

variable {bad : List NodeID} {w : NodeWorld D (SpbJob D)}

/-- A `RandomCoinMsg` of a node that follows the code names a leader that shares combine to. -/
theorem elected_of_received {G : Machine.Guard NodeID (Node D (SpbJob D)) (Msg D)
      (FaultyAct NodeID (Msg D) Act) (Event D)} (hw : (faultyMachine E bad).Reach G w) {i : NodeID}
    (hi : i ∈ E.members) {r : RandomCoinMsg} (hr : Msg.randomCoin r ∈ (w.host i).received)
    (hauthor : r.author ∉ bad) : Elected E r.leader r.view := by
  obtain ⟨j, hj, o, ho, hto⟩ := Machine.Reach.sender hw hi hr
  have hm := Out.msg_of_msgTo hto
  by_cases hbad : j ∈ bad
  · -- a faulty node does not sign for another
    obtain ⟨k, m, rfl, hkey⟩ := (hw.local j).faulty hbad o ho
    cases hm
    have hj : r.author = j := of_decide_eq_true hkey
    exact absurd (hj ▸ hbad) hauthor
  · exact turns.announced ((hw.local j).honest hbad) ho hm

/-- The leader that a node tosses is one that shares combine to. -/
theorem elected_of_reach (hw : (faultyMachine E bad).Reach (TrueCoins E bad) w) {i : NodeID}
    (hi : i ∈ E.members) (hgood : i ∉ bad) {leader : NodeID} {view : ℤ}
    (hc : Tossing (w.host i).st leader view) : Elected E leader view := by
  refine elected_of_tossing ((hw.local i).honest hgood) (fun h₀ r hg hr hv hflag => ?_) hc
  by_cases hauthor : r.author ∈ bad
  · exact hg hgood hauthor hv hflag
  · exact elected_of_received hw hi hr hauthor

end World

end Core

/-- **Nodes that follow the code toss the same coin**, when the faulty nodes tell no wrong ones. -/
theorem coin_agreement {E : Env D}
    (hrec : ∀ digest shares shares' qc qc', E.recover digest shares = some qc →
      E.recover digest shares' = some qc' → qc = qc') {bad : List NodeID}
    {w w' : NodeWorld D (SpbJob D)}
    (hw : (Core.faultyMachine E bad).Reach (Core.TrueCoins E bad) w)
    (hw' : (Core.faultyMachine E bad).Steps (Core.TrueCoins E bad) w w') {i j : NodeID}
    (hi : i ∈ E.members) (hib : i ∉ bad) (hj : j ∈ E.members) (hjb : j ∉ bad)
    {view : ℤ} {leader leader' : NodeID} (hc : Tossing (w.host i).st leader view)
    (hc' : Tossing (w'.host j).st leader' view) : leader = leader' :=
  (Core.elected_of_reach hw hi hib hc).unique hrec
    (Core.elected_of_reach (hw.trans hw') hj hjb hc')

/-! ## Runs with one faulty node -/

namespace FaultyRun

/-- The steps of four nodes of which some are faulty. -/
abbrev FaultyOrder : Type := Order NodeID (Msg ℕ) (FaultyAct NodeID (Msg ℕ) Act)

/-- Node 3 sends shares in the names of the others to node 0, which passes on the coin to node 1. -/
def told : List FaultyOrder :=
  [.act 0 (.act .boot), .act 1 (.act .boot)] ++
  ([0, 1, 2].flatMap fun i =>
    [.act 3 (.send 0 (.elect ⟨i, 0, []⟩)), .deliver 0 (Msg.isElect 0)]) ++
  [.deliver 1 (Msg.isCoin 0)]

/-- Node 3 names node 0 to node 0 and node 1 to node 1, and both go on to their reports. -/
def twoCoins : List FaultyOrder :=
  [0, 1].flatMap fun i => [.act i (.act .boot), .act 3 (.send i (.randomCoin ⟨i, 0, 3, []⟩)),
    .deliver i (Msg.isCoin 0), .act i (.act .main), .act i (.act .main)]

/-- No `RandomCoinMsg` of node 3 arrives. -/
def noCoins : Machine.Guard NodeID (Node ℕ (SpbJob ℕ)) (Msg ℕ) (FaultyAct NodeID (Msg ℕ) Act) (Event ℕ) :=
  fun _ _ x =>
    match x with
    | .recv (.randomCoin r) => r.author ∉ [3]
    | _ => True

instance (i : NodeID) (h : NodeHost ℕ (SpbJob ℕ)) (x : Input (Msg ℕ) (FaultyAct NodeID (Msg ℕ) Act)) :
    Decidable (noCoins i h x) := by
  unfold noCoins
  split <;> infer_instance

/-- The world after `told`. -/
def toldWorld : NodeWorld ℕ (SpbJob ℕ) :=
  (Core.faultyMachine (Env.plain 4 fun _ => 0) [3]).play noCoins
    (Core.faultyMachine (Env.plain 4 fun _ => 0) [3]).world told

end FaultyRun

theorem recover_plain {n : ℕ} {coin : ℕ → UInt8} (digest : ℕ) (shares shares' : List Bytes)
    (qc qc' : Bytes) (h : (Env.plain n coin).recover digest shares = some qc)
    (h' : (Env.plain n coin).recover digest shares' = some qc') : qc = qc' :=
  Option.some.inj (h.symm.trans h')

theorem coin_agreement_four : ∃ leader leader',
    Tossing (FaultyRun.toldWorld.host 0).st leader 0 ∧
      Tossing (FaultyRun.toldWorld.host 1).st leader' 0 ∧ leader = leader' := by
  have hw : (Core.faultyMachine (Env.plain 4 fun _ => 0) [3]).Reach
      (Core.TrueCoins (Env.plain 4 fun _ => 0) [3]) FaultyRun.toldWorld := by
    refine Machine.Steps.mono (fun i h x hx => ?_) (Machine.play_sound _ FaultyRun.told)
    unfold FaultyRun.noCoins at hx
    unfold Core.TrueCoins
    split
    · exact fun _ hbad => absurd hbad hx
    · trivial
  have htoss : Tossing (FaultyRun.toldWorld.host 0).st 0 0 ∧
      Tossing (FaultyRun.toldWorld.host 1).st 0 0 := by
    decide +kernel
  exact ⟨0, 0, htoss.1, htoss.2, coin_agreement recover_plain hw Relation.ReflTransGen.refl
    (by decide) (by decide) (by decide) (by decide) htoss.1 htoss.2⟩

/-- **A faulty node can make others toss different coins.** -/
theorem coins_differ : ∃ (E : Env ℕ) (bad : List NodeID) (w : NodeWorld ℕ (SpbJob ℕ)),
    (∀ digest shares shares' qc qc', E.recover digest shares = some qc →
      E.recover digest shares' = some qc' → qc = qc') ∧
    bad.length ≤ E.tolerated ∧ (Core.faultyMachine E bad).Reach Machine.anyInput w ∧
    ∃ i ∈ E.members, ∃ j ∈ E.members, i ∉ bad ∧ j ∉ bad ∧ ∃ view leader leader',
      Tossing (w.host i).st leader view ∧ Tossing (w.host j).st leader' view ∧ leader ≠ leader' := by
  refine ⟨Env.plain 4 fun _ => 0, [3], (Core.faultyMachine _ _).play Machine.anyInput
    (Core.faultyMachine _ _).world FaultyRun.twoCoins, recover_plain, by decide,
    Machine.play_sound _ _, 0, by decide, 1, by decide, by decide, by decide, 0, 0, 1, ?_⟩
  decide +kernel

end S2Pac
