import S2Pac.BigCore.Rounds
import S2Pac.BigSPB.Course
import S2Pac.Core.Rounds
import S2Pac.DAGBigCore.Rounds

/-!
# Messages that crash a node

What `Codec.Read` hands to the transmitor is a value of one of the types of `DefaultMsgTypes`, with any
numbers in it and any pointer `nil`. Not every value gets through: `DocGQCMsg` has no `Hash`, so that the
type assertion of the transmitor fails; the block, the certificates and the keys of authors are used
without a look at whether they are there, and heights and levels index arrays of two and three entries.
`crash_freedom` says that nothing else brings a node down: one whose peers send it sound messages never
panics, whatever its own messages do to it.
-/

set_option linter.unusedSectionVars false

namespace S2Pac

open Lib

variable {D : Type} [DecidableEq D] {J : Type}

/-! ## From the wire to the handlers -/

/-- A `ProposeMsg` as it is decoded: the block may be missing. -/
structure WirePropose (D : Type) where
  author : NodeID
  b : Option (Block D)
  view : ℤ
  height : ℕ
  docG : Option (DocGQCMsg D)
  signature : Bytes

/-- The values of the types in `DefaultMsgTypes`. -/
inductive Wire (D : Type) where
  | propose (p : WirePropose D)
  | vote (v : VoteMsg D)
  | finVote (fv : FinVoteMsg D)
  | speedVote (sv : SpeedVoteMsg D)
  | elect (e : ElectMsg)
  | randomCoin (r : RandomCoinMsg)
  | report (r : ReportMsg D)
  | docGQC (d : DocGQCMsg D)

/-- The message that the handlers work on; `none` where there is nothing to work on: a proposal without
a block, and a value that is no `ConsensusMessage`. -/
def Wire.msg : Wire D → Option (Msg D)
  | .propose p => p.b.map fun b => .propose ⟨p.author, b, p.view, p.height, p.docG, p.signature⟩
  | .vote v => some (.vote v)
  | .finVote fv => some (.finVote fv)
  | .speedVote sv => some (.speedVote sv)
  | .elect e => some (.elect e)
  | .randomCoin r => some (.randomCoin r)
  | .report r => some (.report r)
  | .docGQC _ => none

/-- **A node that is sent the values `ws`**, in any order with its own steps. The messages that it sends
to itself come in through the same channel. -/
inductive Delivered (M : Machine NodeID (Node D J) (Msg D) Act (Event D)) (self : NodeID) :
    List (Wire D) → NodeHost D J → Prop
  | start : Delivered M self [] (M.start self)
  /-- `msg.(ConsensusMessage)` of the transmitor. -/
  | assertion {ws : List (Wire D)} {h : NodeHost D J} (d : DocGQCMsg D) : Delivered M self ws h →
      Delivered M self (ws ++ [.docGQC d]) { h with st := h.st.crash }
  /-- `p.B.Hash()` in `Verify`. -/
  | nilBlock {ws : List (Wire D)} {h : NodeHost D J} {p : WirePropose D} : Delivered M self ws h →
      h.st.ready = true → p.b = none →
      Delivered M self (ws ++ [.propose p]) { h with st := h.st.crash }
  | recv {ws : List (Wire D)} {h : NodeHost D J} {w : Wire D} {m : Msg D} {s : Node D J}
      {o : List (NodeOut D)} : Delivered M self ws h → w.msg = some m →
      M.recv self h.st m = some (s, o) →
      Delivered M self (ws ++ [w]) ⟨s, h.received ++ [m], h.outs ++ o⟩
  | own {ws : List (Wire D)} {h : NodeHost D J} {out : NodeOut D} {m : Msg D} {s : Node D J}
      {o : List (NodeOut D)} : Delivered M self ws h → out ∈ h.outs →
      out.msgTo self self = some m → M.recv self h.st m = some (s, o) →
      Delivered M self ws ⟨s, h.received ++ [m], h.outs ++ o⟩
  | act {ws : List (Wire D)} {h : NodeHost D J} {a : Act} {s : Node D J} {o : List (NodeOut D)} :
      Delivered M self ws h → M.act self h.st a = some (s, o) →
      Delivered M self ws ⟨s, h.received, h.outs ++ o⟩

/-- The message as a value on the wire. -/
def Msg.wire : Msg D → Wire D
  | .propose p => .propose ⟨p.author, some p.b, p.view, p.height, p.docG, p.signature⟩
  | .vote v => .vote v
  | .finVote fv => .finVote fv
  | .speedVote sv => .speedVote sv
  | .elect e => .elect e
  | .randomCoin r => .randomCoin r
  | .report r => .report r

theorem Msg.wire_msg (m : Msg D) : m.wire.msg = some m := by
  cases m <;> rfl

/-- Every local run of a node is one of a node that is sent its messages. -/
theorem Delivered.of_local {M : Machine NodeID (Node D J) (Msg D) Act (Event D)}
    {G : Machine.Guard NodeID (Node D J) (Msg D) Act (Event D)} {self : NodeID} {h : NodeHost D J}
    (hl : M.Local G self h) : Delivered M self (h.received.map Msg.wire) h := by
  induction hl with
  | start => exact Delivered.start
  | @recv h m s o _ _ hs ih =>
    rw [List.map_append]
    exact Delivered.recv ih m.wire_msg hs
  | act _ _ hs ih => exact Delivered.act ih hs

/-! ## Sound messages -/

/-- The message has what the code looks at. `docG`: the reports in a `DocG` are checked. `parent`: a
height-2 block is asked for its certificate. `fin`: there are handlers for a `FinVoteMsg` and for a
`RandomCoinMsg`. -/
def Msg.Sound (E : Env D) (docG parent fin : Bool) : Msg D → Prop
  | .propose p => p.author ∈ E.members ∧ p.b.height ≤ HEIGHT_2 ∧
      (docG = true → ∀ d ∈ p.docG, ∀ r ∈ d.shares, r.author ∈ E.members) ∧
      (parent = true → p.height = HEIGHT_2 → p.b.qc ≠ none)
  | .vote v => v.author ∈ E.members ∧ v.height ≤ HEIGHT_2
  | .finVote fv => fin = true → fv.author ∈ E.members ∧ fv.qc ≠ none
  | .speedVote sv => sv.author ∈ E.members
  | .elect _ => True
  | .randomCoin r => fin = true → r.author ∈ E.members
  | .report r => r.author ∈ E.members ∧ r.level ≤ LEVEL_0

/-- The value gets to its handler and is sound. -/
def Wire.Sound (E : Env D) (docG parent fin : Bool) (w : Wire D) : Prop :=
  ∃ m, w.msg = some m ∧ m.Sound E docG parent fin

/-- The machines that sound messages do not bring down: neither a handler panics nor a step after it, and
what a node sends to itself is sound. -/
structure Robust (E : Env D) (sound : Msg D → Prop)
    (M : Machine NodeID (Node D J) (Msg D) Act (Event D)) : Prop where
  init : ∀ i, (M.init i).crashed = false
  recv : ∀ i c m r, M.recv i c m = some r → sound m → r.1.crashed = c.crashed
  act : ∀ i h a r, M.Local Machine.anyInput i h → (∀ m ∈ h.received, sound m) →
    M.act i h.st a = some r → r.1.crashed = h.st.crashed
  own : ∀ i h o m, i ∈ E.members → M.Local Machine.anyInput i h → (∀ m ∈ h.received, sound m) →
    o ∈ h.outs → o.msgTo i i = some m → sound m

theorem Robust.not_crashed {E : Env D} {sound : Msg D → Prop}
    {M : Machine NodeID (Node D J) (Msg D) Act (Event D)} (hM : Robust E sound M) {self : NodeID}
    (hself : self ∈ E.members) {ws : List (Wire D)} {h : NodeHost D J}
    (hd : Delivered M self ws h) (hws : ∀ w ∈ ws, ∃ m, w.msg = some m ∧ sound m) :
    h.st.crashed = false := by
  -- along the run, the node has only seen sound messages
  suffices hinv : M.Local Machine.anyInput self h ∧ (∀ m ∈ h.received, sound m) ∧
      h.st.crashed = false from hinv.2.2
  have more {l : List (Msg D)} {m : Msg D} (hl : ∀ m ∈ l, sound m) (hm : sound m) :
      ∀ x ∈ l ++ [m], sound x := by
    intro x hx
    rcases List.mem_append.1 hx with hx | hx
    · exact hl x hx
    · exact List.mem_singleton.1 hx ▸ hm
  induction hd with
  | start => exact ⟨Machine.Local.start, by simp [Machine.start], hM.init self⟩
  | assertion d _ _ =>
    obtain ⟨m, hm, -⟩ := hws _ (List.mem_append_right _ (List.mem_singleton_self _))
    cases hm
  | nilBlock _ _ hb _ =>
    obtain ⟨m, hm, -⟩ := hws _ (List.mem_append_right _ (List.mem_singleton_self _))
    simp [Wire.msg, hb] at hm
  | recv _ hw hs ih =>
    obtain ⟨hl, hrec, hc⟩ := ih fun w hw => hws w (List.mem_append_left _ hw)
    obtain ⟨m, hm, hsound⟩ := hws _ (List.mem_append_right _ (List.mem_singleton_self _))
    obtain rfl := Option.some.inj (hw.symm.trans hm)
    exact ⟨Machine.Local.recv hl trivial hs, more hrec hsound,
      (hM.recv _ _ _ _ hs hsound).trans hc⟩
  | own _ ho hm hs ih =>
    obtain ⟨hl, hrec, hc⟩ := ih hws
    have hsound := hM.own _ _ _ _ hself hl hrec ho hm
    exact ⟨Machine.Local.recv hl trivial hs, more hrec hsound,
      (hM.recv _ _ _ _ hs hsound).trans hc⟩
  | act _ hs ih =>
    obtain ⟨hl, hrec, hc⟩ := ih hws
    exact ⟨Machine.Local.act hl trivial hs, hrec, (hM.act _ _ _ _ hl hrec hs).trans hc⟩

/-! ## What the protocols share -/

/-- The threshold signatures that `tbls.Recover` returns have the four bytes that name the leader. -/
def Env.Recovers (E : Env D) : Prop := ∀ d shares sig, E.recover d shares = some sig → 4 ≤ sig.length

section Shared

variable {E : Env D} {c : Node D J} {r : Moved D J}

theorem Env.checkSig_ne_none {author : NodeID} (h : author ∈ E.members) (d : D) (sig : Bytes) :
    E.checkSig author d sig ≠ none := by
  simp [Env.checkSig, h]

theorem verifyDocG_ne_none {p : ProposeMsg D}
    (h : ∀ d ∈ p.docG, ∀ r ∈ d.shares, r.author ∈ E.members) : p.verifyDocG E ≠ none := by
  unfold ProposeMsg.verifyDocG
  split
  · simp
  · next d hd =>
    have hall : (d.shares.all fun r => (r.verify E).isSome) = true :=
      List.all_eq_true.2 fun r hr =>
        Option.isSome_iff_ne_none.2 (Env.checkSig_ne_none (h d hd r hr) _ _)
    simp [DocGQCMsg.verify, hall]

theorem Elector.add_ne_none (hrec : E.Recovers) (el : Elector) (e : ElectMsg) :
    el.add E e ≠ none := by
  obtain ⟨r, hr⟩ := Elector.exists_add hrec el e
  rw [hr]
  exact Option.some_ne_none r

variable {self : NodeID} {V : Variant} {P : Goroutines D J} {c' : Node D J} {os : List (NodeOut D)}

theorem Msg.Sound.not_faulty {parent : Bool} {m : Msg D} (hm : m.Sound E V.docG parent V.flagged)
    (hrec : E.Recovers) : ¬ Faulty E V c m := by
  cases m with
  | propose p =>
    obtain ⟨ha, -, hdoc, -⟩ := hm
    rintro (h | ⟨hV, h⟩)
    · exact Env.checkSig_ne_none ha _ _ h
    · exact verifyDocG_ne_none (hdoc hV) h
  | vote v => exact Env.checkSig_ne_none hm.1 _ _
  | finVote fv =>
    rintro ⟨rfl, h⟩
    exact Env.checkSig_ne_none (hm rfl).1 _ _ h
  | speedVote sv => exact Env.checkSig_ne_none hm _ _
  | elect e => exact Elector.add_ne_none hrec _ _
  | randomCoin r =>
    rintro ⟨rfl, h⟩
    exact Env.checkSig_ne_none (hm rfl) _ _ h
  | report r =>
    rintro (h | h)
    · exact Env.checkSig_ne_none hm.1 _ _ h
    · exact not_lt.2 hm.2 h

theorem Handling.crashed {m : Msg D} (h : Handling E self V P c m c' os) :
    Faulty E V c m ∨ c'.crashed = c.crashed := by
  cases h with
  | panics hm => exact Or.inl hm
  | _ => exact Or.inr rfl

/-- Of the other steps, only those of the goroutines can panic. -/
theorem Acting.crashed {a : Act} (h : Acting E self V P c a c' os) :
    (∃ k j, (k, j) ∈ c.tasks ∧ P.panics k (c.spbInstances k) j) ∨
      c'.crashed = c.crashed := by
  cases h with
  | @task i k j _ _ _ _ hi _ _ hwork => 
    exact hwork.crashed.imp_left fun h => ⟨k, j, List.mem_of_getElem? hi, h⟩
  | coin hc => exact Or.inr (by cases hc <;> rfl)
  | _ => exact Or.inr rfl

theorem SPB.qcLEvel_le (s : SPB D) : s.qcLEvel.1 ≤ LEVEL_0 := by
  unfold SPB.qcLEvel
  split
  · show LEVEL_2 ≤ LEVEL_0
    decide
  · split
    · show LEVEL_1 ≤ LEVEL_0
      decide
    · exact le_rfl

end Shared

section Own

variable {E : Env D} {docG parent fin : Bool} {self : NodeID}

/-- A height-1 proposal of a node is sound, -/
theorem Turns.FirstProposal.sound {l : List (Msg D)} {p : ProposeMsg D}
    (hp : FirstProposal E self l p) (hself : self ∈ E.members) (hh : p.height = HEIGHT_1) :
    (Msg.propose p).Sound E docG parent fin := by
  refine ⟨hp.author.1 ▸ hself, ?_, fun _ d hd r hr => ?_, fun _ h₂ => ?_⟩
  · exact (hp.height.symm.trans hh).le.trans (Nat.zero_le _)
  · rw [hp.docG d hd] at hr
    exact absurd hr List.not_mem_nil
  · exact absurd (hh.symm.trans h₂) (by decide)

/-- and so is its report. -/
theorem Turns.report_sound {flagged : Bool} {M : Machine NodeID (Node D J) (Msg D) Act (Event D)}
    {G : Machine.Guard NodeID (Node D J) (Msg D) Act (Event D)} {h : NodeHost D J}
    (hM : Turns E flagged M) (hself : self ∈ E.members) (hl : M.Local G self h) {o : NodeOut D}
    (ho : o ∈ h.outs) {r : ReportMsg D} (hr : o.msg = some (.report r)) :
    (Msg.report r).Sound E docG parent fin := by
  obtain ⟨h₀, leader, -, -, -, -, ha, hlev⟩ := hM.reported hl ho hr
  have hle := SPB.qcLEvel_le (h₀.st.spbInstances (r.view, leader))
  rw [hlev] at hle
  exact ⟨ha ▸ hself, hle⟩

end Own

/-- A machine is robust if sound messages leave it no job that panics, and if what its nodes send to
themselves is sound. -/
theorem Branches.robust {E : Env D} {V : Variant} {P : Goroutines D J} {M : NodeMachine D J}
    (hM : Branches E V P M) (hrec : E.Recovers) {parent : Bool}
    (hjob : ∀ i h k j, M.Local Machine.anyInput i h →
      (∀ m ∈ h.received, m.Sound E V.docG parent V.flagged) → (k, j) ∈ h.st.tasks →
      ¬ P.panics k (h.st.spbInstances k) j)
    (hown : ∀ i h o m, i ∈ E.members → M.Local Machine.anyInput i h →
      (∀ m ∈ h.received, m.Sound E V.docG parent V.flagged) → o ∈ h.outs → o.msgTo i i = some m →
      m.Sound E V.docG parent V.flagged) : Robust E (Msg.Sound E V.docG parent V.flagged) M where
  init i := by rw [hM.init]; rfl
  recv _ _ _ _ h hm := (hM.recv _ _ _ _ h).2.crashed.resolve_left (hm.not_faulty hrec)
  act i h a r hl hs hr := by
    refine (hM.act _ _ _ _ hr).crashed.resolve_left ?_
    rintro ⟨k, j, hj, hp⟩
    exact hjob i h k j hl hs hj hp
  own := hown

/-! ## The lean protocol -/

namespace Core

variable {E : Env D} {self : NodeID} {c : Node D (SpbJob D)}

theorem not_panics {l : List (Msg D)} (hl : ∀ m ∈ l, m.Sound E true true true) {k : Key}
    {j : SpbJob D} (hj : Handed l k j) : ¬ Panics k j := by
  cases j with
  | propose p => exact fun ⟨h₂, hqc⟩ => (hl _ hj.1).2.2.2 rfl h₂ hqc
  | vote v => exact not_lt.2 (hl _ hj.1).2
  | finVote fv => exact fun ⟨_, _, hqc⟩ => (hl _ hj.1 rfl).2 hqc
  | _ => exact id

theorem own_sound {h : NodeHost D (SpbJob D)} (hself : self ∈ E.members)
    (hl : (machine E).Local Machine.anyInput self h)
    (hrec : ∀ m ∈ h.received, m.Sound E true true true) {o : NodeOut D} (ho : o ∈ h.outs)
    {m : Msg D} (hm : o.msgTo self self = some m) : m.Sound E true true true := by
  have hmsg := Out.msg_of_msgTo hm
  have hs := (run_sourced (Local.pool_run hl)).2.2 o ho
  cases hs with
  | other hoth =>
    unfold Other at hoth
    rw [hmsg] at hoth
    cases m with
    | propose p => exact (turns.proposed_first hl ho hmsg hoth).sound hself hoth
    | vote v => exact hoth.elim
    | finVote fv => exact hoth.elim
    | speedVote sv => exact hoth.elim
    | elect e => trivial
    | randomCoin r =>
      -- the coin is for the others only
      obtain ⟨_, _, _, _, -, -, rfl⟩ := turns.announcing hl ho hmsg
      simp [Out.msgTo] at hm
    | report r => exact turns.report_sound hself hl ho hmsg
  | vote hp => cases hmsg; exact ⟨hself, (hrec _ hp).2.1⟩
  | propose batch hv hh =>
    cases hmsg
    exact ⟨hself, le_rfl, (fun _ _ hd => by cases hd), fun _ _ => Option.some_ne_none _⟩
  | finVote hv hh => cases hmsg; exact fun _ => ⟨hself, by simp [newFinVoteMsg]⟩
  | speedVote hf hqc => cases hmsg; exact hself

theorem robust (hrec : E.Recovers) : Robust E (Msg.Sound E true true true) (machine E) :=
  (branches E).robust hrec
    (fun _ _ _ _ hl hs hj => not_panics hs ((run_sourced (Local.pool_run hl)).1 _ hj))
    fun _ _ _ _ hi hl hs ho hm => own_sound hi hl hs ho hm

end Core

/-! ## The big protocols -/

namespace BigCore

variable {E : Env D} {self : NodeID} {c : BigNode D}

theorem own_sound {h : NodeHost D (BigJob D)} (hself : self ∈ E.members)
    (hl : (machine E).Local Machine.anyInput self h)
    (hrec : ∀ m ∈ h.received, m.Sound E false true false) {o : NodeOut D} (ho : o ∈ h.outs)
    {m : Msg D} (hmsg : o.msg = some m) : m.Sound E false true false := by
  cases runs.sent hl ho with
  | other hoth =>
    unfold BigSPB.Other at hoth
    rw [hmsg] at hoth
    cases m with
    | propose p => exact (turns.proposed_first hl ho hmsg hoth).sound hself hoth
    | vote v => exact hoth.elim
    | finVote fv => exact hoth.elim
    | speedVote sv => exact hoth.elim
    | elect e => trivial
    | randomCoin r => exact fun hf => by cases hf
    | report r => exact turns.report_sound hself hl ho hmsg
  | vote hp => cases hmsg; exact ⟨hself, (hrec _ hp).2.1⟩
  | propose batch hv hh _ =>
    cases hmsg
    exact ⟨hself, le_rfl, (fun hf => by cases hf), fun _ _ => Option.some_ne_none _⟩
  | speedVote hv hh => cases hmsg; exact hself

theorem not_panics {l : List (Msg D)} (hl : ∀ m ∈ l, m.Sound E false true false) {k : Key} {s : SPB D}
    {j : BigJob D} (hj : BigSPB.Handed self BigSPB.bigRules l k j) :
    ¬ BigSPB.Panics BigSPB.bigRules s j := by
  cases j with
  | propose p => exact fun ⟨h₂, hqc⟩ => (hl _ hj.1).2.2.2 rfl h₂ (Option.map_eq_none_iff.1 hqc)
  | vote v => exact not_lt.2 (hl _ hj.1).2
  | _ => exact id

theorem robust (hrec : E.Recovers) : Robust E (Msg.Sound E false true false) (machine E) :=
  (branches E).robust hrec
    (fun _ _ _ _ hl hs hj => not_panics hs ((BigSPB.run_sourced (runs.pool hl)).1 _ hj))
    fun _ _ _ _ hi hl hs ho hm => own_sound hi hl hs ho (Out.msg_of_msgTo hm)

end BigCore

namespace DAGBigCore

variable {E : Env D} {self : NodeID} {c : BigNode D}

theorem own_sound {h : NodeHost D (BigJob D)} (hself : self ∈ E.members)
    (hl : (machine E).Local Machine.anyInput self h)
    (hrec : ∀ m ∈ h.received, m.Sound E true false false) {o : NodeOut D} (ho : o ∈ h.outs)
    {m : Msg D} (hmsg : o.msg = some m) : m.Sound E true false false := by
  cases runs.sent hl ho with
  | other hoth =>
    unfold BigSPB.Other at hoth
    rw [hmsg] at hoth
    cases m with
    | propose p =>
      have hp := proposal hl ho hmsg
      refine ⟨hp.author.1 ▸ hself, hp.height ▸ hp.height_le, fun _ d hd => ?_, fun hf => by cases hf⟩
      rw [hp.plain.2] at hd
      cases hd
    | vote v => exact hoth.elim
    | finVote fv => exact hoth.elim
    | speedVote sv => exact hoth.elim
    | elect e => trivial
    | randomCoin r => exact fun hf => by cases hf
    | report r => exact absurd hmsg (not_report hl ho r)
  | vote hp => cases hmsg; exact ⟨hself, (hrec _ hp).2.1⟩
  | propose batch hv hh _ =>
    cases hmsg
    exact ⟨hself, le_rfl, (fun _ _ hd => by cases hd), fun hf => by cases hf⟩
  | speedVote hv hh => cases hmsg; exact hself

theorem not_panics {l : List (Msg D)} (hl : ∀ m ∈ l, m.Sound E true false false) {k : Key} {s : SPB D}
    {j : BigJob D} (hj : BigSPB.Handed self BigSPB.dagRules l k j) :
    ¬ BigSPB.Panics BigSPB.dagRules s j := by
  cases j with
  | propose p => exact fun ⟨_, hok⟩ => by cases hok
  | vote v => exact not_lt.2 (hl _ hj.1).2
  | _ => exact id

theorem robust (hrec : E.Recovers) : Robust E (Msg.Sound E true false false) (machine E) :=
  (branches E).robust hrec
    (fun _ _ _ _ hl hs hj => not_panics hs ((BigSPB.run_sourced (runs.pool hl)).1 _ hj))
    fun _ _ _ _ hi hl hs ho hm => own_sound hi hl hs ho (Out.msg_of_msgTo hm)

end DAGBigCore

/-- **No sound message can crash a node**: whatever else happens at a node of one of the three protocols,
it does not panic while its peers send it sound values. -/
theorem crash_freedom (E : Env D) (hrec : E.Recovers) (self : NodeID) (hself : self ∈ E.members) :
    (∀ ws h, Delivered (Core.machine E) self ws h → (∀ w ∈ ws, w.Sound E true true true) →
      h.st.crashed = false) ∧
    (∀ ws h, Delivered (BigCore.machine E) self ws h → (∀ w ∈ ws, w.Sound E false true false) →
      h.st.crashed = false) ∧
    ∀ ws h, Delivered (DAGBigCore.machine E) self ws h → (∀ w ∈ ws, w.Sound E true false false) →
      h.st.crashed = false :=
  ⟨fun _ _ hd hws => (Core.robust hrec).not_crashed hself hd hws,
    fun _ _ hd hws => (BigCore.robust hrec).not_crashed hself hd hws,
    fun _ _ hd hws => (DAGBigCore.robust hrec).not_crashed hself hd hws⟩

namespace Crashing

/-- Node 0 is entered, handed a message, and runs the goroutine that is started with it. -/
def run (M : Machine NodeID (Node ℕ J) (Msg ℕ) Act (Event ℕ)) (m : Msg ℕ) : NodeHost ℕ J :=
  M.feed Machine.anyInput 0 (M.start 0) [.act .boot, .recv m, .act (.task 0)]

theorem feed_delivered {M : NodeMachine ℕ J} {xs : List (Input (Msg ℕ) Act)} {ms : List (Msg ℕ)}
    (h : (M.feed Machine.anyInput 0 (M.start 0) xs).received = ms) :
    Delivered M 0 (ms.map Msg.wire) (M.feed Machine.anyInput 0 (M.start 0) xs) := by
  have hl : M.Local Machine.anyInput 0 (M.feed Machine.anyInput 0 (M.start 0) xs) :=
    Machine.Local.start.steps (Machine.feed_sound _ _ _)
  rw [← h]
  exact Delivered.of_local hl

theorem run_delivered {M : NodeMachine ℕ J} {m : Msg ℕ} (h : (run M m).received = [m]) :
    Delivered M 0 [m.wire] (run M m) := feed_delivered h

/-- A vote, a report, a final vote and proposals of node 1 that miss something. -/
def messages : List (Msg ℕ) :=
  [.vote ⟨1, 1, 0, 0, 2, []⟩, .vote ⟨4, 1, 0, 0, 0, []⟩, .report ⟨1, 0, 3, none, []⟩,
    .finVote ⟨1, 0, none, []⟩, .propose ⟨1, ⟨1, 0, HEIGHT_2, ⟨-1, []⟩, none, []⟩, 0, HEIGHT_2, none, []⟩,
    .propose ⟨1, ⟨1, 0, HEIGHT_1, ⟨-1, []⟩, none, []⟩, 0, HEIGHT_1,
      some ⟨0, 0, [⟨4, 0, 0, none, []⟩]⟩, []⟩]

/-- Messages of the nodes 1, 2 and 3 that miss nothing: a proposal, votes of every kind, shares, the coin and
reports. -/
def harmless : List (Msg ℕ) :=
  .propose ⟨1, ⟨1, 0, HEIGHT_1, ⟨-1, []⟩, none, []⟩, 0, HEIGHT_1, none, []⟩ ::
  ([1, 2, 3].flatMap fun i => [.vote ⟨i, 0, 0, 0, HEIGHT_1, []⟩, .vote ⟨i, 0, 0, 0, HEIGHT_2, []⟩,
    .finVote ⟨i, 0, some ⟨0, HEIGHT_2, i, 0, []⟩, []⟩, .speedVote ⟨i, i, 0, 0, []⟩, .elect ⟨i, 0, []⟩]) ++
  .randomCoin ⟨1, 0, 0, []⟩ :: [1, 2, 3].map fun i => .report ⟨i, 0, LEVEL_1, none, []⟩

/-- Node 0 is handed all of them, and its goroutines run in between. -/
def unharmed (M : NodeMachine ℕ J) : NodeHost ℕ J :=
  M.feed Machine.anyInput 0 (M.start 0) (.act .boot :: harmless.flatMap fun m =>
    .recv m :: (List.replicate 9 [.act (.task 0), .act .callback, .act .main]).flatten)

theorem unharmed_delivered {M : NodeMachine ℕ J} (h : (unharmed M).received = harmless) :
    Delivered M 0 (harmless.map Msg.wire) (unharmed M) := feed_delivered h

theorem harmless_sound (docG parent fin : Bool) :
    ∀ w ∈ harmless.map Msg.wire, w.Sound (Env.plain 4 fun _ => 0) docG parent fin := by
  have hsound : ∀ m ∈ harmless, m.Sound (Env.plain 4 fun _ => 0) docG parent fin := by
    simp [harmless, Msg.Sound, Env.members, Env.plain, List.range_succ]
  intro w hw
  obtain ⟨m, hm, rfl⟩ := List.mem_map.1 hw
  exact ⟨m, m.wire_msg, hsound m hm⟩

end Crashing

theorem crash_freedom_all :
    ((Crashing.unharmed (Core.machine (Env.plain 4 fun _ => 0))).received = Crashing.harmless ∧
      (Crashing.unharmed (Core.machine (Env.plain 4 fun _ => 0))).st.crashed = false) ∧
    ((Crashing.unharmed (BigCore.machine (Env.plain 4 fun _ => 0))).received = Crashing.harmless ∧
      (Crashing.unharmed (BigCore.machine (Env.plain 4 fun _ => 0))).st.crashed = false) ∧
    (Crashing.unharmed (DAGBigCore.machine (Env.plain 4 fun _ => 0))).received = Crashing.harmless ∧
      (Crashing.unharmed (DAGBigCore.machine (Env.plain 4 fun _ => 0))).st.crashed = false := by
  have hrec : (Env.plain 4 fun _ => 0).Recovers := by
    intro d shares sig h
    cases h
    exact le_rfl
  obtain ⟨hcore, hbig, hdag⟩ := crash_freedom _ hrec 0 (by decide)
  have hr₁ : (Crashing.unharmed (Core.machine (Env.plain 4 fun _ => 0))).received = Crashing.harmless := by
    decide +kernel
  have hr₂ : (Crashing.unharmed (BigCore.machine (Env.plain 4 fun _ => 0))).received =
      Crashing.harmless := by
    decide +kernel
  have hr₃ : (Crashing.unharmed (DAGBigCore.machine (Env.plain 4 fun _ => 0))).received =
      Crashing.harmless := by
    decide +kernel
  exact ⟨⟨hr₁, hcore _ _ (Crashing.unharmed_delivered hr₁) (Crashing.harmless_sound _ _ _)⟩,
    ⟨hr₂, hbig _ _ (Crashing.unharmed_delivered hr₂) (Crashing.harmless_sound _ _ _)⟩,
    hr₃, hdag _ _ (Crashing.unharmed_delivered hr₃) (Crashing.harmless_sound _ _ _)⟩

/-- **Messages that crash a node.** A `DocGQCMsg` does not get past the transmitor and a proposal without
a block not past `Verify`; a vote for a third height, one of a stranger, a report at a fourth level, a
final vote and a height-2 proposal without a certificate, and a stranger's report inside a proposal bring
a node of the lean protocol down, and some of them the others. -/
theorem values_crash :
    (∃ h, Delivered (Core.machine (Env.plain 4 fun _ => 0)) 0 [.docGQC ⟨0, 0, []⟩] h ∧
      h.st.crashed = true) ∧
    (∃ h, Delivered (Core.machine (Env.plain 4 fun _ => 0)) 0
      [.propose ⟨1, none, 0, HEIGHT_1, none, []⟩] h ∧ h.st.crashed = true) ∧
    (∀ m ∈ Crashing.messages, ∃ h,
      Delivered (Core.machine (Env.plain 4 fun _ => 0)) 0 [m.wire] h ∧ h.st.crashed = true) ∧
    (∀ m ∈ Crashing.messages.take 3, ∃ h,
      Delivered (BigCore.machine (Env.plain 4 fun _ => 0)) 0 [m.wire] h ∧ h.st.crashed = true) ∧
    ∀ m ∈ Crashing.messages.take 3, ∃ h,
      Delivered (DAGBigCore.machine (Env.plain 4 fun _ => 0)) 0 [m.wire] h ∧ h.st.crashed = true := by
  have hcore : ∀ m ∈ Crashing.messages,
      (Crashing.run (Core.machine (Env.plain 4 fun _ => 0)) m).received = [m] ∧
      (Crashing.run (Core.machine (Env.plain 4 fun _ => 0)) m).st.crashed = true := by
    decide +kernel
  have hbig : ∀ m ∈ Crashing.messages.take 3,
      (Crashing.run (BigCore.machine (Env.plain 4 fun _ => 0)) m).received = [m] ∧
      (Crashing.run (BigCore.machine (Env.plain 4 fun _ => 0)) m).st.crashed = true := by
    decide +kernel
  have hdag : ∀ m ∈ Crashing.messages.take 3,
      (Crashing.run (DAGBigCore.machine (Env.plain 4 fun _ => 0)) m).received = [m] ∧
      (Crashing.run (DAGBigCore.machine (Env.plain 4 fun _ => 0)) m).st.crashed = true := by
    decide +kernel
  refine ⟨⟨_, Delivered.assertion _ Delivered.start, rfl⟩, ?_, fun m hm => ?_, fun m hm => ?_,
    fun m hm => ?_⟩
  · have hboot : ∃ h, Delivered (Core.machine (Env.plain 4 fun _ => 0)) 0 [] h ∧
        h.st.ready = true :=
      ⟨_, Delivered.of_local (Machine.Local.start.steps (Machine.feed_sound (G := Machine.anyInput) _ _
        [.act .boot])), by decide +kernel⟩
    obtain ⟨h, hd, hready⟩ := hboot
    exact ⟨_, Delivered.nilBlock hd hready rfl, rfl⟩
  · exact ⟨_, Crashing.run_delivered (hcore m hm).1, (hcore m hm).2⟩
  · exact ⟨_, Crashing.run_delivered (hbig m hm).1, (hbig m hm).2⟩
  · exact ⟨_, Crashing.run_delivered (hdag m hm).1, (hdag m hm).2⟩

end S2Pac
