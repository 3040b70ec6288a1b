import S2Pac.BigCore
import S2Pac.BigSPB.World
import S2Pac.MainLoop

/-!
# Runs of the big protocol

Every step of a node is a turn (`turns`), and a node runs the goroutines of the big instances (`runs`).
That makes the reachable worlds orderly, and every certificate in them sound.
-/

set_option linter.unusedSectionVars false

namespace S2Pac

open Lib BigSPB

variable {D : Type} [DecidableEq D]

namespace BigSPB

variable {E : Env D} {self : NodeID} {V : Rules D}

theorem Held.recorded {l : List (Msg D)} {k : Key} {s : SPB D} (h : Held E V l k s) {height : ℕ}
    (hh : height ≤ HEIGHT_2) : Turns.Recorded E l k height (s.blockHash height) := by
  rcases height_cases hh with rfl | rfl
  · rcases h.first with ⟨-, hz⟩ | ⟨p, hp, hk, hph, -, hb⟩
    · exact Or.inl hz
    · exact Or.inr ⟨p, hp, hk, hph, hb⟩
  · exact h.second

theorem JobStep.grows {k : Key} {s s' : SPB D} {j : BigJob D} {js : List (BigJob D)}
    {os : List (NodeOut D)} (h : JobStep E self V k s j s' js os) : s.Grows s' := by
  refine ⟨fun hs => ?_, fun height hs => h.blockQcs_ne_none hs⟩
  cases h with
  | speedCert => rfl
  | _ => exact hs

theorem JobStep.aside {k : Key} {s s' : SPB D} {j : BigJob D} {js : List (BigJob D)}
    {os : List (NodeOut D)} (h : JobStep E self V k s j s' js os) : ∀ o ∈ os, Aside o := by
  intro o ho
  cases h with
  | replay p => rw [List.mem_singleton.1 ho]; exact Aside.bcast trivial
  | quorumSecond v hv => rw [List.mem_singleton.1 ho]; exact Aside.bcast trivial
  | newPropose v batch => rw [List.mem_singleton.1 ho]; exact Aside.bcast Nat.one_ne_zero
  | _ => exact absurd ho List.not_mem_nil

end BigSPB

namespace BigCore

variable {E : Env D} {self : NodeID}

/-! ## Turns -/

theorem turns : Turns E false (machine E) :=
  (branches E).turns (by simp) (fun _ _ _ _ _ _ _ h => h.grows) fun _ _ _ _ _ _ _ h => h.aside

/-! ## A node is a pool -/

theorem recv_frame {c : BigNode D} {m : Msg D} {r : BigMoved D} (h : recv E self c m = some r) :
    PoolFrame (spawn bigRules m) (Other bigRules) c r :=
  ((branches E).recv _ _ _ _ h).2.frame (C := code E self bigRules) fun _ ho => ho

theorem pool_act {c : BigNode D} {a : Act} {r : BigMoved D} (hh : c.height = HEIGHT_1)
    (h : act E self c a = some r) : PoolStep (code E self bigRules) c a r :=
  (acting h).poolStep hh (fun _ _ _ _ _ _ hs => hs) fun _ ho => ho

/-- **A node is a pool of goroutines**, whatever it is handed. -/
theorem runs : Runs E bigRules (machine E) where
  pool hl := pool_local rfl (fun _ _ _ hs => recv_frame hs)
    (fun _ _ _ hl _ hs => pool_act (turns.started hl).1 hs) hl

/-! ## Reachable worlds -/

section World

variable {G : Machine.Guard NodeID (BigNode D) (Msg D) Act (Event D)} {h : NodeHost D (BigJob D)}
  {w : NodeWorld D (BigJob D)}

theorem signed (hl : (machine E).Local G self h) {o : NodeOut D} (ho : o ∈ h.outs) {m : Msg D}
    (hm : o.msg = some m) : m.SignedBy self ∧ m.Proper := by
  cases runs.sent hl ho with
  | other hoth =>
    unfold Other at hoth
    rw [hm] at hoth
    cases m with
    | propose p =>
      have hp := turns.proposed_first hl ho hm hoth
      have hh : p.height = HEIGHT_1 := hoth
      exact ⟨hp.author.1, hp.author.1.trans hp.author.2.symm, hp.view, hp.height,
        hh ▸ Nat.zero_le _⟩
    | vote v => exact hoth.elim
    | finVote fv => exact hoth.elim
    | speedVote sv => exact hoth.elim
    | elect e => exact ⟨trivial, trivial⟩
    | randomCoin r => exact ⟨trivial, trivial⟩
    | report r =>
      obtain ⟨-, -, -, -, -, -, ha, -⟩ := turns.reported hl ho hm
      exact ⟨ha, trivial⟩
  | vote hp => cases hm; exact ⟨rfl, trivial⟩
  | propose batch hv hh hp => cases hm; exact ⟨rfl, rfl, rfl, rfl, le_rfl⟩
  | speedVote hv hh => cases hm; exact ⟨rfl, trivial⟩

theorem not_proposes : ¬ (bigRules : Rules D).proposes HEIGHT_2 := by
  simp [bigRules]

theorem propose_le_one (hl : (machine E).Local G self h) (view : ℤ) (height : ℕ) :
    h.outs.countP (Out.carries (Msg.isPropose (view, self) height)) ≤ 1 := by
  by_cases hh : height ≤ HEIGHT_2
  · rcases height_cases hh with rfl | rfl
    · exact (turns.first_once hl view).1
    · have honce := propose_once not_proposes (runs.pool hl) view
      have hle : h.outs.countP (Out.carries (Msg.isPropose (view, self) HEIGHT_2)) ≤ _ :=
        (Nat.le_add_left _ _).trans honce
      split at hle <;> omega
  · refine le_of_eq_of_le (List.countP_eq_zero.2 fun o ho hc => ?_) (Nat.zero_le _)
    obtain ⟨m, hm, hP⟩ := Out.carries_iff.1 hc
    cases m with
    | propose p =>
      have hle := (signed hl ho hm).2.2.2.2
      have hp : p.height = height := (of_decide_eq_true hP).2
      omega
    | _ => simp at hP

theorem orderly (hw : (machine E).Reach G w) : Orderly (machine E) w where
  signed i _ _ ho _ hm := signed (hw.local i) ho hm
  once i _ view height := propose_le_one (hw.local i) view height

/-- What makes a node send a height-2 proposal: enough votes. -/
theorem voteNums_of_propose (hl : (machine E).Local G self h) {o : NodeOut D} (ho : o ∈ h.outs)
    {view : ℤ} (hc : o.carries (Msg.isPropose (view, self) HEIGHT_2) = true) :
    E.hightThreshold ≤ (h.st.spbInstances (view, self)).voteNums HEIGHT_1 := by
  have honce := propose_once not_proposes (runs.pool hl) view
  have hpos : 0 < h.outs.countP (Out.carries (Msg.isPropose (view, self) HEIGHT_2)) :=
    List.countP_pos_iff.2 ⟨o, ho, hc⟩
  have hle : h.outs.countP (Out.carries (Msg.isPropose (view, self) HEIGHT_2)) ≤ _ :=
    (Nat.le_add_left _ _).trans honce
  by_contra hlt
  have hlt : ¬ E.hightThreshold ≤ ((pool h).inst (view, self)).voteNums HEIGHT_1 := hlt
  rw [if_neg hlt] at hle
  omega

theorem held_sound (hw : (machine E).Reach G w) {i : NodeID} (hi : i ∈ (machine E).hosts)
    (hrec : ∀ m ∈ (w.host i).received, ∀ q ∈ m.qcs, QcSound E (machine E) w q)
    (hl : (machine E).Local G i h) (hpre : h.received <+: (w.host i).received) {k : Key}
    {q : BlockQC D} (hq : (h.st.spbInstances k).preQc = some q ∨
      ∃ height, (h.st.spbInstances k).blockQcs height = some q) :
    QcSound E (machine E) w q := by
  rcases hq with hq | ⟨height, hq⟩
  · rcases (runs.held hl k).first with ⟨hn, -⟩ | ⟨p, hp, -, -, hpq, -⟩
    · rw [hn] at hq
      cases hq
    · exact hrec _ (hpre.subset hp) q (by simp [Msg.qcs, ← hpq, hq])
  · exact runs.blockQcs_sound (orderly hw) hw hi hl hpre hq

theorem qcs_sound_step (hw : (machine E).Reach G w) {i : NodeID} (hi : i ∈ (machine E).hosts)
    (hrec : ∀ m ∈ (w.host i).received, ∀ q ∈ m.qcs, QcSound E (machine E) w q)
    {o : NodeOut D} (ho : o ∈ (w.host i).outs) {m : Msg D} (hm : o.msg = some m) {q : BlockQC D}
    (hq : q ∈ m.qcs) : QcSound E (machine E) w q := by
  have hl := hw.local i
  cases runs.sent hl ho with
  | other hoth =>
    unfold Other at hoth
    rw [hm] at hoth
    cases m with
    | propose p =>
      rcases (turns.proposed_first hl ho hm hoth).qcs hq with ⟨r, hr, hq⟩
      exact hrec _ hr q hq
    | report r =>
      obtain ⟨h₀, leader, hl₀, -, hpre, -, -, hlev⟩ := turns.reported hl ho hm
      rw [Option.mem_toList.1 hq] at hlev
      exact held_sound hw hi hrec hl₀ hpre (qcLEvel_mem hlev)
    | _ => first | exact hoth.elim | exact absurd hq List.not_mem_nil
  | vote hp => cases hm; exact absurd hq List.not_mem_nil
  | @propose v batch hv hh hp =>
    cases hm
    have hq : q = v.makeQC (v.view, v.proposer) := by simpa [Msg.qcs, newProposeMsg] using hq
    rw [hq]
    refine runs.makeQC_sound (orderly hw) hw hi hl (List.prefix_refl _) hv (hh ▸ Nat.zero_le _) ?_
    rw [hp, hh]
    exact voteNums_of_propose hl ho (by simp [newProposeMsg])
  | speedVote hv hh => cases hm; exact absurd hq List.not_mem_nil

theorem received_sound (hw : (machine E).Reach G w) {i : NodeID} (hi : i ∈ (machine E).hosts) :
    ∀ m ∈ (w.host i).received, ∀ q ∈ m.qcs, QcSound E (machine E) w q := by
  refine hw.received_induction (P := fun (w : NodeWorld D (BigJob D)) _ (m : Msg D) =>
    ∀ q ∈ m.qcs, QcSound E (machine E) w q) (fun _ _ _ _ hle h q hq => (h q hq).mono hle) ?_ i hi
  intro w hw j hj hrec o ho _ m hom q hq
  exact qcs_sound_step hw hj hrec ho (Out.msg_of_msgTo hom) hq

/-- **Every certificate in a message is sound.** -/
theorem qcs_sound (hw : (machine E).Reach G w) {i : NodeID} (hi : i ∈ (machine E).hosts)
    {o : NodeOut D} (ho : o ∈ (w.host i).outs) {m : Msg D} (hm : o.msg = some m) {q : BlockQC D}
    (hq : q ∈ m.qcs) : QcSound E (machine E) w q :=
  qcs_sound_step hw hi (received_sound hw hi) ho hm hq

theorem instance_qcs_sound (hw : (machine E).Reach G w) {i : NodeID} (hi : i ∈ (machine E).hosts)
    {k : Key} {q : BlockQC D} (hq : ((w.host i).st.spbInstances k).preQc = some q ∨
      ∃ height, ((w.host i).st.spbInstances k).blockQcs height = some q) :
    QcSound E (machine E) w q :=
  held_sound hw hi (received_sound hw hi) (hw.local i) (List.prefix_refl _) hq

/-! ## Links -/

theorem linked_step (hw : (machine E).Reach G w) {i : NodeID}
    (hrec : ∀ m ∈ (w.host i).received, m.Linked) {o : NodeOut D} (ho : o ∈ (w.host i).outs)
    {m : Msg D} (hm : o.msg = some m) : m.Linked := by
  have hl := hw.local i
  cases runs.sent hl ho with
  | other hoth =>
    unfold Other at hoth
    rw [hm] at hoth
    cases m with
    | propose p => exact (turns.proposed_first hl ho hm hoth).linked hoth hrec
    | report r =>
      intro q hq
      obtain ⟨h₀, leader, hl₀, -, hpre, -, -, hlev⟩ := turns.reported hl ho hm
      rw [hq] at hlev
      rcases qcLEvel_mem hlev with hpq | ⟨height, hbq⟩
      · rcases (runs.held hl₀ (r.view, leader)).first with ⟨hn, -⟩ | ⟨p, hp, hkey, hph, hpp, -⟩
        · exact (Option.some_ne_none q (hpq.symm.trans hn)).elim
        · have := (hrec _ (hpre.subset hp)).1 hph q (hpp.symm.trans hpq)
          have := congrArg Prod.fst hkey
          dsimp only at this
          omega
      · exact le_of_eq (runs.names hl₀ hbq).view_eq
    | finVote fv => exact hoth.elim
    | _ => trivial
  | vote hp => cases hm; trivial
  | propose batch hv hh hp =>
    cases hm
    exact ⟨fun h₁ => absurd h₁ (by simp [newProposeMsg]), fun _ => ⟨_, rfl, rfl, hh, hp⟩⟩
  | speedVote hv hh => cases hm; trivial

theorem linked_received (hw : (machine E).Reach G w) {i : NodeID} (hi : i ∈ (machine E).hosts) :
    ∀ m ∈ (w.host i).received, m.Linked := by
  refine hw.received_induction (P := fun (_ : NodeWorld D (BigJob D)) _ (m : Msg D) => m.Linked)
    (fun _ _ _ _ _ h => h) ?_ i hi
  intro w hw j hj hrec o ho _ m hom
  exact linked_step hw hrec ho (Out.msg_of_msgTo hom)

end World

end BigCore

end S2Pac
