import S2Pac.Core.Evidence
import S2Pac.Core.Agreement
import S2Pac.BigCore.Tally
import S2Pac.BigCore.Agreement

/-!
# A view that is never left

`handleReportMsg` leaves a view with one report of `LEVEL_2`, or with `HightThreshold()` reports of the
same level. A node reports a view once. When all have reported and the reports are divided between
`LEVEL_1` and `LEVEL_0`, no report is still to come, and there is no other way out of the view: what is
about a later view goes back to a proposal of that view, and the first of these to the reports of the view
before.
-/

namespace S2Pac

open Lib

variable {D : Type} [DecidableEq D] {J : Type}

/-- The view that a message is about. -/
def Msg.viewOf : Msg D → ℤ
  | .propose p => p.view
  | .vote v => v.view
  | .finVote fv => fv.view
  | .speedVote sv => sv.view
  | .elect e => e.view
  | .randomCoin r => r.view
  | .report r => r.view

/-! ## What a message goes back to -/

namespace Turns

variable {E : Env D} {flagged : Bool} {M : NodeMachine D J}
  {G : Machine.Guard NodeID (Node D J) (Msg D) Act (Event D)} {self : NodeID} {h : NodeHost D J}

theorem busy_source (hM : Turns E flagged M) (hl : M.Local G self h) {view : ℤ}
    (hb : busy h.st.pc = some view) : ∃ m ∈ h.received, m.viewOf = view := by
  revert hb
  refine hM.induction (P := fun h => busy h.st.pc = some view → ∃ m ∈ h.received, m.viewOf = view)
    (fun hb => by cases hb) ?_ hl
  intro h x c' os _ ih ht hb
  have old (hb : busy h.st.pc = some view) : ∃ m ∈ h.received ++ x.heard, m.viewOf = view := by
    obtain ⟨m, hm, hv⟩ := ih hb
    exact ⟨m, List.mem_append_left _ hm, hv⟩
  cases ht with
  | aside hk _ _ => exact old (hk.pc ▸ hb)
  | store hk _ => exact old (hk.pc ▸ hb)
  | @elected e _ _ _ _ _ _ _ _ => exact ⟨.elect e, by simp, Option.some.inj hb⟩
  | @told r _ _ _ => exact ⟨.randomCoin r, by simp, Option.some.inj hb⟩
  | process hp => exact old (busy_of_coinStep hp hb)
  | report _ => cases hb
  | _ => exact old hb

theorem report_source (hM : Turns E flagged M) (hl : M.Local G self h) {o : NodeOut D} (ho : o ∈ h.outs)
    {r : ReportMsg D} (hr : o.msg = some (.report r)) : ∃ m ∈ h.received, m.viewOf = r.view := by
  obtain ⟨h₀, leader, hl₀, -, hpre, hpc, -⟩ := hM.reported hl ho hr
  obtain ⟨m, hm, hv⟩ := hM.busy_source hl₀ (hpc ▸ rfl : busy h₀.st.pc = some r.view)
  exact ⟨m, hpre.subset hm, hv⟩

theorem coin_source (hM : Turns E flagged M) (hl : M.Local G self h) {o : NodeOut D} (ho : o ∈ h.outs)
    {r : RandomCoinMsg} (hr : o.msg = some (.randomCoin r)) : ∃ m ∈ h.received, m.viewOf = r.view := by
  obtain ⟨h₀, x, c', os, -, -, ht, hos, hpre⟩ := hM.origin hl ho
  have hshare : ∀ {e : ElectMsg} {res : Except ElectErr NodeID}, x = .recv (.elect e) →
      Announced E self res e.view o → ∃ m ∈ h.received, m.viewOf = r.view := by
    rintro e res rfl ⟨leader, -, -, rfl⟩
    cases hr
    exact ⟨.elect e, hpre.subset (by simp), rfl⟩
  cases ht with
  | aside _ _ ha =>
    exact ((ha o hos).beside hr).elim
  | shares _ ha => exact hshare rfl (ha o hos)
  | elected _ _ _ _ ha => exact hshare rfl (ha o hos)
  | process hs =>
    cases hs with
    | handed _ _ => rw [List.mem_singleton.1 hos] at hr; cases hr
    | _ => exact absurd hos List.not_mem_nil
  | report _ => rw [List.mem_singleton.1 hos] at hr; cases hr
  | commitor _ => obtain ⟨b, -, rfl⟩ := List.mem_map.1 hos; cases hr
  | boot _ _ => rw [List.mem_singleton.1 hos] at hr; cases hr
  | advance _ _ _ _ _ _ => rw [List.mem_singleton.1 hos] at hr; cases hr
  | _ => exact absurd hos List.not_mem_nil

theorem first_source (hM : Turns E flagged M) (hl : M.Local G self h) {o : NodeOut D} (ho : o ∈ h.outs)
    {p : ProposeMsg D} (hp : o.msg = some (.propose p)) (hh : p.height = HEIGHT_1) :
    o.carries (Msg.isPropose (p.view, self) HEIGHT_1) = true := by
  have ha := (hM.proposed_first hl ho hp hh).author.1
  exact Out.carries_iff.2 ⟨_, hp, by simp [ha, hh]⟩

end Turns

omit [DecidableEq D] in
theorem Ballots.elect_source {E : Env D} {M : NodeMachine D (BigJob D)} (hM : Ballots E M)
    {G : Machine.Guard NodeID (BigNode D) (Msg D) Act (Event D)} {self : NodeID}
    {h : NodeHost D (BigJob D)} (hl : M.Local G self h) {o : NodeOut D} (ho : o ∈ h.outs) {e : ElectMsg}
    (he : o.msg = some (.elect e)) : ∃ sv, Msg.speedVote sv ∈ h.received ∧ sv.view = e.view := by
  have hstep : ∀ {c c' : BigNode D} {x : Input (Msg D) Act} {os : List (NodeOut D)},
      Ballot E self c x c' os → o ∈ os → ∃ sv, x = .recv (.speedVote sv) ∧ sv.view = e.view := by
    intro c c' x os hb hos
    cases hb with
    | @counted sv _ _ _ =>
      unfold BigCore.countSpeedVote at hos
      dsimp only at hos
      split at hos
      · rw [List.mem_singleton.1 hos] at he
        cases he
        exact ⟨sv, rfl, rfl⟩
      · exact absurd hos List.not_mem_nil
    | other _ hno => exact absurd he (hno o hos e)
  obtain ⟨h₀, x, r, -, -, hr, hor, hpre, -⟩ := hl.origin ho
  cases x with
  | recv m =>
    obtain ⟨⟨s, os⟩, hs, rfl⟩ := Option.map_eq_some_iff.1 hr
    obtain ⟨sv, hx, hv⟩ := hstep (hM.recv _ _ _ _ hs) hor
    cases hx
    exact ⟨sv, hpre.subset (by simp), hv⟩
  | act a =>
    obtain ⟨⟨s, os⟩, hs, rfl⟩ := Option.map_eq_some_iff.1 hr
    obtain ⟨sv, hx, -⟩ := hstep (hM.act _ _ _ _ hs) hor
    cases hx

/-- What node `self` has sent is about a view in which it has proposed, or of which it has been told. -/
def Answers (self : NodeID) (h : NodeHost D J) : Prop :=
  ∀ o ∈ h.outs, ∀ m, o.msg = some m → (∃ m' ∈ h.received, m'.viewOf = m.viewOf) ∨
    o.carries (Msg.isPropose (m.viewOf, self) HEIGHT_1) = true

theorem Core.answers_of_local {E : Env D} {self : NodeID}
    {G : Machine.Guard NodeID (Node D (SpbJob D)) (Msg D) Act (Event D)} {h : NodeHost D (SpbJob D)}
    (hl : (machine E).Local G self h) (hproper : AllProper h.received) : Answers self h := by
  intro o ho m hm
  cases (run_sourced (Local.pool_run hl)).2.2 o ho with
  | other hoth =>
    unfold Other at hoth
    rw [hm] at hoth
    cases m with
    | propose p => exact Or.inr (turns.first_source hl ho hm hoth)
    | vote v => exact hoth.elim
    | finVote fv => exact hoth.elim
    | speedVote sv => exact hoth.elim
    | elect e =>
      obtain ⟨-, -, hle⟩ := (sharing hl).shares o ho e hm
      obtain ⟨a, ha⟩ := List.exists_mem_of_length_pos ((Nat.succ_pos _).trans_le hle)
      obtain ⟨fv, hfv, hv, -⟩ := (sharing hl).counted _ a ha
      exact Or.inl ⟨_, hfv, hv⟩
    | randomCoin r => exact Or.inl (turns.coin_source hl ho hm)
    | report r => exact Or.inl (turns.report_source hl ho hm)
  | @vote p hp =>
    cases hm
    exact Or.inl ⟨_, hp, (hproper _ hp).2.1⟩
  | @propose v batch hv hh =>
    cases hm
    exact Or.inl ⟨_, hv, rfl⟩
  | @finVote v hv hh =>
    cases hm
    exact Or.inl ⟨_, hv, rfl⟩
  | @speedVote fv qc hfv hqc =>
    cases hm
    exact Or.inl ⟨_, hfv, (hproper _ hfv qc hqc).1.symm⟩

theorem BigCore.answers_of_local {E : Env D} {self : NodeID}
    {G : Machine.Guard NodeID (BigNode D) (Msg D) Act (Event D)} {h : NodeHost D (BigJob D)}
    (hl : (machine E).Local G self h) (hproper : AllProper h.received) : Answers self h := by
  intro o ho m hm
  cases runs.sent hl ho with
  | other hoth =>
    unfold BigSPB.Other at hoth
    rw [hm] at hoth
    cases m with
    | propose p => exact Or.inr (turns.first_source hl ho hm hoth)
    | vote v => exact hoth.elim
    | finVote fv => exact hoth.elim
    | speedVote sv => exact hoth.elim
    | elect e =>
      obtain ⟨sv, hsv, hv⟩ := (ballots E).elect_source hl ho hm
      exact Or.inl ⟨_, hsv, hv⟩
    | randomCoin r => exact Or.inl (turns.coin_source hl ho hm)
    | report r => exact Or.inl (turns.report_source hl ho hm)
  | @vote p hp =>
    cases hm
    exact Or.inl ⟨_, hp, (hproper _ hp).2.1⟩
  | @propose v batch hv hh _ =>
    cases hm
    exact Or.inl ⟨_, hv, rfl⟩
  | @speedVote v hv hh =>
    cases hm
    exact Or.inl ⟨_, hv, rfl⟩

/-! ## Views that nobody enters -/

/-- Somebody has proposed in the view. -/
def Entered (M : NodeMachine D J) (w : NodeWorld D J) (view : ℤ) : Prop :=
  ∃ i ∈ M.hosts, ∃ o ∈ (w.host i).outs, o.carries (Msg.isPropose (view, i) HEIGHT_1) = true

/-- **The reports of the view are divided**: who makes one has made it, and there are too few at every
level. -/
structure Divided (E : Env D) (M : NodeMachine D J) (w : NodeWorld D J) (view : ℤ) : Prop where
  reported : ∀ i ∈ M.hosts, E.faults ≤ i →
    ∃ o ∈ (w.host i).outs, o.carries (Msg.isReportOf view) = true
  below : Turns.Below E fun level =>
    ∑ i ∈ M.hosts.toFinset, (w.host i).outs.countP (Out.carries (Msg.isReport view level))

instance (E : Env D) (M : NodeMachine D J) (w : NodeWorld D J) (view : ℤ) :
    Decidable (Divided E M w view) :=
  decidable_of_iff (_ ∧ (_ ∧ _ ∧ _)) ⟨fun ⟨h, h₂, h₁, h₀⟩ => ⟨h, h₂, h₁, h₀⟩,
    fun ⟨h, h₂, h₁, h₀⟩ => ⟨h, h₂, h₁, h₀⟩⟩

/-- The machines whose nodes report a view once, and send nothing about a view that they have not heard of. -/
structure Reporters (E : Env D) (flagged : Bool) (M : NodeMachine D J) : Prop where
  turns : Turns E flagged M
  once : ∀ i h view, M.Local Machine.anyInput i h →
    h.outs.countP (Out.carries (Msg.isReportOf view)) ≤ 1
  answers : ∀ i ∈ M.hosts, ∀ w, M.Reach Machine.anyInput w → Answers i (w.host i)

namespace Reporters

variable {E : Env D} {flagged : Bool} {M : NodeMachine D J} (hM : Reporters E flagged M)
  {w w' : NodeWorld D J} {view : ℤ}
include hM

theorem silent {i : NodeID} (hi : i < E.faults) {h : NodeHost D J}
    (hl : M.Local Machine.anyInput i h) : h.st.booted = false ∧ h.st.pc = .idle ∧
      h.outs.countP (Out.carries (Msg.isReportOf view)) = 0 := by
  induction hl with
  | start => simp [Machine.start, hM.turns.init, Node.new]
  | @recv h m s o _ _ hs ih => exact (Bool.false_ne_true (ih.1.symm.trans (hM.turns.booted _ _ _ _ hs))).elim
  | @act h a s o _ _ hs ih =>
    obtain ⟨hb, hpc, h0⟩ := ih
    have hturn := hM.turns.act _ _ _ _ hs
    dsimp only at hturn ⊢
    rw [List.countP_append, h0, Nat.zero_add]
    cases hturn with
    | aside hk _ ho => exact ⟨hk.booted ▸ hb, hk.pc ▸ hpc, Turns.carries_report_of_aside ho⟩
    | boot _ _ hlive => exact absurd hlive (not_le.2 hi)
    | process hp => cases hp <;> simp_all
    | report h => rw [hpc] at h; cases h
    | commitor _ => exact ⟨hb, hpc, Turns.countP_emit _ _⟩

/-- What is sent is about a view that somebody has entered. -/
theorem entered (hw : M.Reach Machine.anyInput w) {i : NodeID} (hi : i ∈ M.hosts) {o : NodeOut D}
    (ho : o ∈ (w.host i).outs) {m : Msg D} (hm : o.msg = some m) : Entered M w m.viewOf := by
  have hrec : ∀ i ∈ M.hosts, ∀ m ∈ (w.host i).received, Entered M w m.viewOf := by
    refine hw.received_induction (P := fun w _ (m : Msg D) => Entered M w m.viewOf)
      (fun w w' _ m hle h => ?_) fun w hw j hj hrec o ho _ m hom => ?_
    · obtain ⟨i, hi, o, ho, hc⟩ := h
      exact ⟨i, hi, o, (hle i).2.subset ho, hc⟩
    · rcases hM.answers j hj w hw o ho m (Out.msg_of_msgTo hom) with ⟨m', hm', hv⟩ | hc
      · exact hv ▸ hrec m' hm'
      · exact ⟨j, hj, o, ho, hc⟩
  rcases hM.answers i hi w hw o ho m hm with ⟨m', hm', hv⟩ | hc
  · exact hv ▸ hrec i hi m' hm'
  · exact ⟨i, hi, o, ho, hc⟩

theorem countP_report (hw : M.Reach Machine.anyInput w) (hd : Divided E M w view)
    (hs : M.Steps Machine.anyInput w w') {i : NodeID} (hi : i ∈ M.hosts) (level : ℕ) :
    (w'.host i).outs.countP (Out.carries (Msg.isReport view level)) =
      (w.host i).outs.countP (Out.carries (Msg.isReport view level)) := by
  obtain ⟨os, hos⟩ := (hs.later i).2
  have hl : M.Local Machine.anyInput i (w'.host i) := Machine.Reach.local (hw.trans hs) i
  have hnone : os.countP (Out.carries (Msg.isReportOf view)) = 0 := by
    by_cases hf : E.faults ≤ i
    · obtain ⟨o, ho, hc⟩ := hd.reported i hi hf
      have hpos := List.countP_pos_iff.2 ⟨o, ho, hc⟩
      have hle := hM.once i _ view hl
      rw [← hos, List.countP_append] at hle
      omega
    · have h0 : (w'.host i).outs.countP (Out.carries (Msg.isReportOf view)) = 0 :=
        (hM.silent (not_le.1 hf) hl).2.2
      rw [← hos, List.countP_append] at h0
      omega
  have hzero : os.countP (Out.carries (Msg.isReport view level)) = 0 := by
    refine List.countP_eq_zero.2 fun o ho hc => List.countP_eq_zero.1 hnone o ho ?_
    obtain ⟨m, hm, hP⟩ := Out.carries_iff.1 hc
    cases m with
    | report r => exact Out.carries_iff.2 ⟨_, hm, decide_eq_true (of_decide_eq_true hP).1⟩
    | _ => cases hP
  rw [← hos, List.countP_append, hzero, Nat.add_zero]

theorem received_le (hw : M.Reach Machine.anyInput w) (hd : Divided E M w view)
    (hs : M.Steps Machine.anyInput w w') {i : NodeID} (hi : i ∈ M.hosts) (level : ℕ) :
    (w'.host i).received.countP (Msg.isReport view level) ≤
      ∑ j ∈ M.hosts.toFinset, (w.host j).outs.countP (Out.carries (Msg.isReport view level)) := by
  have hcons := Machine.Reach.conserve (hw.trans hs) hi (Msg.isReport view level)
  calc (w'.host i).received.countP (Msg.isReport view level)
      ≤ M.sentTo w' i (Msg.isReport view level) := by omega
    _ ≤ ∑ j ∈ M.hosts.toFinset, (w'.host j).outs.countP (Out.carries (Msg.isReport view level)) := by
      refine Finset.sum_le_sum fun j _ => List.countP_mono_left fun o _ hb => ?_
      exact Out.carries_of_brings hb
    _ = ∑ j ∈ M.hosts.toFinset, (w.host j).outs.countP (Out.carries (Msg.isReport view level)) :=
      Finset.sum_congr rfl fun j hj => hM.countP_report hw hd hs (List.mem_toFinset.1 hj) level

/-- Who enters a view after the first has reports of the view before. -/
theorem justified_of_entered (hw : M.Reach Machine.anyInput w) (hview : 0 < view)
    (he : Entered M w view) : ∃ i ∈ M.hosts, ∃ r, Msg.report r ∈ (w.host i).received ∧
      r.view + 1 = view ∧ Turns.Justified E (w.host i).received r := by
  obtain ⟨i, hi, o, ho, hc⟩ := he
  obtain ⟨m, hm, hP⟩ := Out.carries_iff.1 hc
  cases m with
  | propose p =>
    obtain ⟨hk, hh⟩ : (p.view, p.author) = (view, i) ∧ p.height = HEIGHT_1 := of_decide_eq_true hP
    have hv : p.view = view := congrArg Prod.fst hk
    rcases (hM.turns.proposed_first (hw.local i) ho hm hh).parent with ⟨h0, -⟩ | ⟨r, hr, hrv, -, hj⟩
    · omega
    · exact ⟨i, hi, r, hr, hrv.trans hv, hj⟩
  | _ => cases hP

theorem not_entered (hw : M.Reach Machine.anyInput w) (hd : Divided E M w view)
    (hs : M.Steps Machine.anyInput w w') (hview : 0 ≤ view) (n : ℕ) :
    ¬ Entered M w' (view + 1 + n) := by
  have hw' : M.Reach Machine.anyInput w' := hw.trans hs
  induction n with
  | zero =>
    -- the reports of the view itself are too few
    intro he
    obtain ⟨i, hi, r, hr, hrv, hj⟩ := hM.justified_of_entered hw' (by omega) he
    obtain rfl : r.view = view := by push_cast at hrv; omega
    have hle := hM.received_le hw hd hs hi
    obtain ⟨h2, h1, h0⟩ := hd.below
    rcases hj with hlev | ⟨hlev | hlev, hthr⟩
    · have hpos : 0 < (w'.host i).received.countP (Msg.isReport r.view LEVEL_2) :=
        List.countP_pos_iff.2 ⟨_, hr, by simp [hlev]⟩
      exact absurd ((hle LEVEL_2).trans_eq h2) (not_le.2 hpos)
    · rw [hlev] at hthr
      exact absurd (hthr.trans (hle LEVEL_1)) (not_le.2 h1)
    · rw [hlev] at hthr
      exact absurd (hthr.trans (hle LEVEL_0)) (not_le.2 h0)
  | succ n ih =>
    -- a report of the view before is about a view that somebody has entered
    intro he
    obtain ⟨i, hi, r, hr, hrv, -⟩ := hM.justified_of_entered hw' (by omega) he
    obtain ⟨j, hj, o, ho, hom⟩ := hw'.sender hi hr
    have hv : (Msg.report r).viewOf = view + 1 + n := by
      push_cast at hrv
      change r.view = _
      omega
    exact ih (hv ▸ hM.entered hw' hj ho (Out.msg_of_msgTo hom))

/-- **A divided view is never left.** -/
theorem never_left (hw : M.Reach Machine.anyInput w) (hd : Divided E M w view)
    (hs : M.Steps Machine.anyInput w w') (hview : 0 ≤ view) {i : NodeID} (hi : i ∈ M.hosts) :
    (w'.host i).st.view ≤ view ∧
      ∀ o ∈ (w'.host i).outs, ∀ m, o.msg = some m → m.viewOf ≤ view := by
  have hw' : M.Reach Machine.anyInput w' := hw.trans hs
  have hle : ∀ u, Entered M w' u → u ≤ view := by
    intro u he
    by_contra hlt
    obtain ⟨n, hn⟩ := Int.eq_ofNat_of_zero_le (by omega : 0 ≤ u - (view + 1))
    exact hM.not_entered hw hd hs hview n (by rwa [← hn, add_sub_cancel])
  refine ⟨?_, fun o ho m hm => hle _ (hM.entered hw' hi ho hm)⟩
  cases hb : (w'.host i).st.booted with
  | false => exact ((hM.turns.started (hw'.local i)).2.2 hb).trans_le hview
  | true =>
    obtain ⟨o, ho, hc⟩ := hM.turns.proposed (hw'.local i) hb
    exact hle _ ⟨i, hi, o, ho, hc⟩

end Reporters

theorem Core.reporters (E : Env D) : Reporters E true (Core.machine E) where
  turns := turns
  once _ _ view hl := (turns.report_once hl view).1
  answers _ hi _ hw := answers_of_local (hw.local _) ((orderly hw).proper_of_received hw hi)

theorem BigCore.reporters (E : Env D) : Reporters E false (BigCore.machine E) where
  turns := turns
  once _ _ view hl := (turns.report_once_of_shares hl view).1
  answers _ hi _ hw := answers_of_local (hw.local _) ((orderly hw).proper_of_received hw hi)

/-- **Divided reports stop the protocol for good.** In both protocols that count reports, once all nodes
have reported a view and no level has enough reports, no continuation of the run takes a node out of the
view, and nothing is ever sent about a later one. -/
theorem divided_view_never_left (E : Env D) (view : ℤ) (hview : 0 ≤ view) :
    (∀ w w' : NodeWorld D (SpbJob D), (Core.machine E).Reach Machine.anyInput w →
      Divided E (Core.machine E) w view → (Core.machine E).Steps Machine.anyInput w w' →
      ∀ i ∈ E.members, (w'.host i).st.view ≤ view ∧
        ∀ o ∈ (w'.host i).outs, ∀ m, o.msg = some m → m.viewOf ≤ view) ∧
    ∀ w w' : NodeWorld D (BigJob D), (BigCore.machine E).Reach Machine.anyInput w →
      Divided E (BigCore.machine E) w view → (BigCore.machine E).Steps Machine.anyInput w w' →
      ∀ i ∈ E.members, (w'.host i).st.view ≤ view ∧
        ∀ o ∈ (w'.host i).outs, ∀ m, o.msg = some m → m.viewOf ≤ view :=
  ⟨fun _ _ hw hd hs _ hi => (Core.reporters E).never_left hw hd hs hview hi,
    fun _ _ hw hd hs _ hi => (BigCore.reporters E).never_left hw hd hs hview hi⟩

/-- Node 3 leads view 0. Its height-2 block comes to nodes 0 and 3 in time, and not to nodes 1 and 2. -/
def LeanRun.divided : List (NodeOrder ℕ) :=
  bootFour ++ phase 0 HEIGHT_1 3 ++
  (.deliver 3 (Msg.isPropose (0, 3) HEIGHT_1) :: again 3 (.task 0) 2) ++
  ([0, 3].flatMap fun i =>
    .deliver i (Msg.isPropose (0, 3) HEIGHT_2) :: again i (.task 0) 2) ++
  round 0 ++ again 0 .main 3 ++ [1, 2, 3].flatMap (told 0 3)

/-- The world after `LeanRun.divided`. -/
def LeanRun.dividedWorld : NodeWorld ℕ (SpbJob ℕ) :=
  (Core.machine (Env.plain 4 fun _ => 3)).play Machine.anyInput
    (Core.machine (Env.plain 4 fun _ => 3)).world divided

/-- Node 3 leads view 0. The votes for its height-1 block come to nodes 0 and 3 in time, and not to nodes
1 and 2. -/
def BigRun.divided : List (NodeOrder ℕ) :=
  bootFour ++ propose 0 HEIGHT_1 [0, 1, 2, 3] 3 ++ votes 0 HEIGHT_1 [0, 3] 3 ++ round 0 ++
  [0, 1, 2, 3].flatMap (elect 0)

/-- The world after `BigRun.divided`. -/
def BigRun.dividedWorld : NodeWorld ℕ (BigJob ℕ) :=
  (BigCore.machine (Env.plain 4 fun _ => 3)).play Machine.anyInput
    (BigCore.machine (Env.plain 4 fun _ => 3)).world divided

theorem divided_view_never_left_four :
    (Divided (Env.plain 4 fun _ => 3) (Core.machine (Env.plain 4 fun _ => 3)) LeanRun.dividedWorld 0 ∧
      ∀ w', (Core.machine (Env.plain 4 fun _ => 3)).Steps Machine.anyInput LeanRun.dividedWorld w' →
        (w'.host 0).st.view ≤ 0) ∧
    Divided (Env.plain 4 fun _ => 3) (BigCore.machine (Env.plain 4 fun _ => 3)) BigRun.dividedWorld 0 ∧
      ∀ w', (BigCore.machine (Env.plain 4 fun _ => 3)).Steps Machine.anyInput BigRun.dividedWorld w' →
        (w'.host 0).st.view ≤ 0 := by
  have hlean : Divided (Env.plain 4 fun _ => 3) (Core.machine (Env.plain 4 fun _ => 3))
      LeanRun.dividedWorld 0 := by decide +kernel
  have hbig : Divided (Env.plain 4 fun _ => 3) (BigCore.machine (Env.plain 4 fun _ => 3))
      BigRun.dividedWorld 0 := by decide +kernel
  obtain ⟨hcore, hbigcore⟩ := divided_view_never_left (Env.plain 4 fun _ => 3) 0 le_rfl
  refine ⟨⟨hlean, fun w' hs => ?_⟩, hbig, fun w' hs => ?_⟩
  · exact (hcore _ w' (Machine.play_sound _ LeanRun.divided) hlean hs 0 (by decide)).1
  · exact (hbigcore _ w' (Machine.play_sound _ BigRun.divided) hbig hs 0 (by decide)).1

end S2Pac
