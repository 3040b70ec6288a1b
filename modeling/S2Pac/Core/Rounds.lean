import S2Pac.Certificates
import S2Pac.Core.Votes
import S2Pac.MainLoop

/-!
# Runs of the lean protocol

Every step of a node is a turn (`turns`). With the counts of the instances that makes the reachable
worlds orderly, and every certificate in them sound.
-/

set_option linter.unusedSectionVars false

namespace S2Pac

open Lib

variable {D : Type} [DecidableEq D]

namespace Core

variable {E : Env D} {self : NodeID}

theorem Held.recorded {l : List (Msg D)} {k : Key} {s : SPB D} (h : Held E l k s) {height : ℕ}
    (hh : height ≤ HEIGHT_2) : Turns.Recorded E l k height (s.blockHash height) := by
  rcases height_cases hh with rfl | rfl
  · rcases h.first with ⟨-, hz⟩ | ⟨p, hp, hk, hph, -, hb⟩
    · exact Or.inl hz
    · exact Or.inr ⟨p, hp, hk, hph, hb⟩
  · rcases h.second with ⟨-, hz⟩ | ⟨p, -, hp, hk, hph, -, -, hb⟩
    · exact Or.inl hz
    · exact Or.inr ⟨p, hp, hk, hph, hb⟩

/-! ## Turns -/

theorem JobStep.grows {k : Key} {s s' : SPB D} {j : SpbJob D} {js : List (SpbJob D)}
    {os : List (NodeOut D)} (h : JobStep E self k s j s' js os) : s.Grows s' := by
  refine ⟨fun hs => ?_, fun height hs => h.blockQcs_ne_none hs⟩
  cases h with
  | speedCert => rfl
  | _ => exact hs

theorem JobStep.aside {k : Key} {s s' : SPB D} {j : SpbJob D} {js : List (SpbJob D)}
    {os : List (NodeOut D)} (h : JobStep E self k s j s' js os) : ∀ o ∈ os, Aside o := by
  intro o ho
  cases h with
  | replay p =>
    rw [List.mem_singleton.1 ho]
    refine ⟨fun _ _ h => ?_, _, rfl, trivial⟩
    cases h
    exact Or.inl ⟨_, rfl⟩
  | quorumFirst v batch hv => rw [List.mem_singleton.1 ho]; exact Aside.bcast Nat.one_ne_zero
  | quorumSecond v hv => rw [List.mem_singleton.1 ho]; exact Aside.bcast trivial
  | finAccept fv qc ha hv hqc heq =>
    rw [List.mem_singleton.1 ho]
    refine ⟨fun _ _ h => ?_, _, rfl, trivial⟩
    cases h
    exact Or.inr ⟨_, rfl⟩
  | _ => exact absurd ho List.not_mem_nil

theorem turns : Turns E true (machine E) :=
  (branches E).turns (by simp) (fun _ _ _ _ _ _ _ h => h.grows) fun _ _ _ _ _ _ _ h => h.aside

/-! ## A node is a pool -/

theorem recv_frame {c : Node D (SpbJob D)} {m : Msg D} {r : Moved D (SpbJob D)}
    (h : recv E self c m = some r) : PoolFrame (spawn m) Other c r :=
  ((branches E).recv _ _ _ _ h).2.frame (C := code E self) fun _ ho => ho

theorem pool_act {c : Node D (SpbJob D)} {a : Act} {r : Moved D (SpbJob D)}
    (hh : c.height = HEIGHT_1) (h : act E self c a = some r) : PoolStep (code E self) c a r :=
  (acting h).poolStep hh (fun _ _ _ _ _ _ hs => hs) fun _ ho => ho

section Local

variable {G : Machine.Guard NodeID (Node D (SpbJob D)) (Msg D) Act (Event D)}
  {h : NodeHost D (SpbJob D)}

/-- **A node is a pool of goroutines**, whatever it is handed. What the guard says of the tasks that
run is kept. -/
theorem Local.pool_run_restrict {ok : Key → SpbJob D → Prop}
    (hok : ∀ h i k j, G self h (.act (.task i)) → h.st.tasks[i]? = some (k, j) → ok k j)
    (hl : (machine E).Local G self h) : ((code E self).restrict ok).Run (pool h) := by
  refine pool_local rfl (fun _ _ _ hs => recv_frame hs) (fun h a r hl hg hs => ?_) hl
  refine (pool_act (turns.started hl).1 hs).restrict fun i k j ha hi => ?_
  subst ha
  exact hok h i k j hg hi

theorem Local.pool_run (hl : (machine E).Local G self h) : (code E self).Run (pool h) := by
  have hrun : ((code E self).restrict fun _ _ => True).Run (pool h) :=
    Local.pool_run_restrict (fun _ _ _ _ _ _ => trivial) hl
  exact hrun.of_restrict

end Local

/-! ## What a node sends -/

section Sent

variable {G : Machine.Guard NodeID (Node D (SpbJob D)) (Msg D) Act (Event D)}
  {h : NodeHost D (SpbJob D)}

theorem voted (hl : (machine E).Local G self h) {o : NodeOut D} (ho : o ∈ h.outs) {v : VoteMsg D}
    (hm : o.msg = some (.vote v)) : ∃ p, Msg.propose p ∈ h.received ∧
      o = .to p.author (.vote v) ∧ v = newVoteMsg E self p.b := by
  have hs := (run_sourced (Local.pool_run hl)).2.2 o ho
  cases hs with
  | other hoth =>
    unfold Other at hoth
    rw [hm] at hoth
    exact hoth.elim
  | @vote p hp =>
    cases hm
    exact ⟨p, hp, rfl, rfl⟩
  | _ => cases hm

theorem signed (hl : (machine E).Local G self h)
    (hv : ∀ v, Msg.vote v ∈ h.received → v.proposer = self) {o : NodeOut D} (ho : o ∈ h.outs)
    {m : Msg D} (hm : o.msg = some m) : m.SignedBy self ∧ m.Proper := by
  have hs := (run_sourced (Local.pool_run hl)).2.2 o ho
  cases hs with
  | other hoth =>
    unfold Other at hoth
    rw [hm] at hoth
    cases m with
    | propose p =>
      have hp := turns.proposed_first hl ho hm hoth
      have hh : p.height = HEIGHT_1 := hoth
      exact ⟨hp.author.1, hp.author.1.trans hp.author.2.symm, hp.view, hp.height,
        hh ▸ Nat.zero_le _⟩
    | vote v => exact hoth.elim
    | finVote fv => exact hoth.elim
    | speedVote sv => exact hoth.elim
    | elect e => exact ⟨trivial, trivial⟩
    | randomCoin r => exact ⟨trivial, trivial⟩
    | report r =>
      obtain ⟨-, -, -, -, -, -, ha, -⟩ := turns.reported hl ho hm
      exact ⟨ha, trivial⟩
  | vote hp => cases hm; exact ⟨rfl, trivial⟩
  | propose batch hv' hh => cases hm; exact ⟨rfl, rfl, rfl, rfl, le_rfl⟩
  | finVote hv' hh =>
    cases hm
    refine ⟨rfl, fun qc hqc => ?_⟩
    cases hqc
    exact ⟨rfl, hv _ hv'⟩
  | speedVote hf hqc => cases hm; exact ⟨rfl, trivial⟩

/-- What makes a node send a height-2 proposal or a `FinVoteMsg`: enough votes. -/
theorem votes_of_follows (hl : (machine E).Local G self h)
    (hv : ∀ v, Msg.vote v ∈ h.received → v.proposer = self) {view : ℤ} {height : ℕ}
    (ho : ∃ o ∈ h.outs, o.carries (follows self view height) = true) :
    E.hightThreshold ≤ h.received.countP (Msg.isVote (view, self) height) := by
  have hx := Local.pool_run hl
  have hpos : 0 < h.outs.countP (Out.carries (follows self view height)) :=
    List.countP_pos_iff.2 ho
  have honce : pending h.st.tasks (view, self) (toCertify height) +
      h.outs.countP (Out.carries (follows self view height)) ≤
      if E.hightThreshold ≤ (h.st.spbInstances (view, self)).voteNums height then 1 else 0 :=
    certify_once hx hv view height
  have hnums : (h.st.spbInstances (view, self)).voteNums height ≤
      h.received.countP (Msg.isVote (view, self) height) := voteNums_le hx height
  split at honce <;> omega

theorem follows_le_one (hl : (machine E).Local G self h)
    (hv : ∀ v, Msg.vote v ∈ h.received → v.proposer = self) (view : ℤ) (height : ℕ) :
    h.outs.countP (Out.carries (follows self view height)) ≤ 1 := by
  have honce : pending h.st.tasks (view, self) (toCertify height) +
      h.outs.countP (Out.carries (follows self view height)) ≤
      if E.hightThreshold ≤ (h.st.spbInstances (view, self)).voteNums height then 1 else 0 :=
    certify_once (Local.pool_run hl) hv view height
  split at honce <;> omega

end Sent

/-! ## Reachable worlds -/

section World

variable {G : Machine.Guard NodeID (Node D (SpbJob D)) (Msg D) Act (Event D)}
  {w : NodeWorld D (SpbJob D)}

/-- Received messages are proper, and votes come to the proposer. -/
theorem routed (hw : (machine E).Reach G w) {i : NodeID} (hi : i ∈ (machine E).hosts) :
    AllProper (w.host i).received ∧ ∀ v, Msg.vote v ∈ (w.host i).received → v.proposer = i := by
  have hall := hw.received_induction
    (P := fun (_ : NodeWorld D (SpbJob D)) i (m : Msg D) =>
      m.Proper ∧ ∀ v, m = Msg.vote v → v.proposer = i)
    (fun _ _ _ _ _ h => h) ?_ i hi
  · exact ⟨fun m hm => (hall m hm).1, fun v hv => (hall _ hv).2 v rfl⟩
  · intro w hw j hj hrec o ho i m hom
    have hm := Out.msg_of_msgTo hom
    have hr : AllProper (w.host j).received := fun m hm => (hrec m hm).1
    refine ⟨(signed (hw.local j) (fun v hv => (hrec _ hv).2 v rfl) ho hm).2, ?_⟩
    rintro v rfl
    obtain ⟨p, hp, rfl, rfl⟩ := voted (hw.local j) ho hm
    have hi : i = p.author := by
      simp only [Out.msgTo] at hom
      split at hom
      · assumption
      · cases hom
    rw [hi]
    exact (hr _ hp).1.symm

theorem orderly (hw : (machine E).Reach G w) : Orderly (machine E) w where
  signed i hi o ho m hm := signed (hw.local i) (routed hw hi).2 ho hm
  once i hi view height := by
    obtain ⟨-, hv⟩ := routed hw hi
    by_cases h₁ : height = HEIGHT_1
    · subst h₁
      exact (turns.first_once (hw.local i) view).1
    · by_cases h₂ : height = HEIGHT_2
      · subst h₂
        refine le_trans (List.countP_mono_left fun o ho hc => ?_)
          (follows_le_one (hw.local i) hv view HEIGHT_1)
        obtain ⟨m, hm, hP⟩ := Out.carries_iff.1 hc
        refine Out.carries_iff.2 ⟨m, hm, ?_⟩
        cases m <;> simp_all
      · refine le_of_eq_of_le (List.countP_eq_zero.2 fun o ho hc => ?_) (Nat.zero_le _)
        obtain ⟨m, hm, hP⟩ := Out.carries_iff.1 hc
        cases m with
        | propose p =>
          have hle := (signed (hw.local i) hv ho hm).2.2.2.2
          simp only [Msg.isPropose, decide_eq_true_eq] at hP
          simp only [HEIGHT_1, HEIGHT_2] at *
          omega
        | _ => simp at hP

theorem voting (hw : (machine E).Reach G w) : Voting E (machine E) w where
  voted i hi o ho v hm := by
    obtain ⟨p, hp, -, hv⟩ := voted (hw.local i) ho hm
    exact ⟨p, hp, hv⟩
  once i hi k height := by
    have hx := Local.pool_run (hw.local i)
    obtain ⟨hr, -⟩ := routed hw hi
    have hone := fun height => (orderly hw).propose_le_one hw k height hi
    by_cases h₁ : height = HEIGHT_1
    · subst h₁
      exact ((Nat.le_add_left _ _).trans (votes_first k hx hr)).trans (hone _)
    · by_cases h₂ : height = HEIGHT_2
      · subst h₂
        exact ((Nat.le_add_left _ _).trans (votes_second k hx hr (hone _))).trans (hone _)
      · refine le_of_eq_of_le (List.countP_eq_zero.2 fun o ho hc => ?_) (Nat.zero_le _)
        obtain ⟨m, hm, hP⟩ := Out.carries_iff.1 hc
        cases m with
        | vote v =>
          obtain ⟨p, hp, -, rfl⟩ := voted (hw.local i) ho hm
          obtain ⟨-, -, hh, hle⟩ := hr _ hp
          have hP : p.b.height = height := (of_decide_eq_true hP).2
          simp only [HEIGHT_1, HEIGHT_2] at *
          omega
        | _ => simp at hP

theorem finVote_le_one (hw : (machine E).Reach G w) (k : Key) {i : NodeID}
    (hi : i ∈ (machine E).hosts) : (w.host i).received.countP (Msg.isFinVote k) ≤ 1 := by
  refine (orderly hw).received_le_one hw (k := k) (fun m hm j hs => ?_) (fun hk => ?_) hi
  · cases m with
    | finVote fv =>
      simp only [Msg.isFinVote, decide_eq_true_eq] at hm
      exact (Eq.symm hs).trans (congrArg Prod.snd hm)
    | _ => simp at hm
  · refine le_trans (List.countP_mono_left fun o ho hc => ?_)
      (follows_le_one (hw.local k.2) (routed hw hk).2 k.1 HEIGHT_2)
    obtain ⟨m, hm, hP⟩ := Out.carries_iff.1 hc
    refine Out.carries_iff.2 ⟨m, hm, ?_⟩
    cases m <;> simp_all

theorem speedVote_le_one (hw : (machine E).Reach G w) (k : Key) {i : NodeID}
    (hi : i ∈ (machine E).hosts) :
    (w.host i).outs.countP (Out.carries (Msg.isSpeedVote k)) ≤ 1 :=
  (speedVotes_le (Local.pool_run (hw.local i)) (routed hw hi).1
    ((orderly hw).propose_le_one hw k HEIGHT_1 hi)
    ((orderly hw).propose_le_one hw k HEIGHT_2 hi)).trans (finVote_le_one hw k hi)

/-! ## Certificates -/

theorem Held.height_le {l : List (Msg D)} {k : Key} {s : SPB D} (h : Held E l k s) {height : ℕ}
    {q : BlockQC D} (hq : s.blockQcs height = some q) : height ≤ HEIGHT_2 := by
  by_contra hlt
  rw [h.above height (not_le.1 hlt)] at hq
  cases hq

theorem Held.qcs {l : List (Msg D)} {k : Key} {s : SPB D} (h : Held E l k s) {q : BlockQC D}
    (hq : s.preQc = some q ∨ ∃ height, s.blockQcs height = some q) :
    ∃ m ∈ l, q ∈ m.qcs := by
  rcases hq with hq | ⟨height, hq⟩
  · rcases h.first with ⟨hn, -⟩ | ⟨p, hp, -, -, hpq, -⟩
    · rw [hn] at hq
      cases hq
    · exact ⟨_, hp, by simp [Msg.qcs, ← hpq, hq]⟩
  · rcases height_cases (h.height_le hq) with rfl | rfl
    · rcases h.second with ⟨hn, -⟩ | ⟨p, qc, hp, -, -, hpq, hsq, -⟩
      · rw [hn] at hq
        cases hq
      · refine ⟨_, hp, ?_⟩
        rw [hsq] at hq
        cases hq
        simp [Msg.qcs, hpq]
    · obtain ⟨⟨fv, hfv, -, hqc⟩, -⟩ := h.fin q hq
      exact ⟨_, hfv, by simp [Msg.qcs, hqc]⟩

theorem makeQC_sound (hw : (machine E).Reach G w) {i : NodeID} (hi : i ∈ (machine E).hosts)
    {v : VoteMsg D} (hv : Msg.vote v ∈ (w.host i).received)
    (ho : ∃ o ∈ (w.host i).outs, o.carries (follows i v.view v.height) = true) :
    QcSound E (machine E) w (v.makeQC (v.view, v.proposer)) := by
  have hcount := votes_of_follows (hw.local i) (routed hw hi).2 ho
  refine (voting hw).qcSound (orderly hw) hw hi hv ?_
  rw [(routed hw hi).2 v hv]
  exact hcount

theorem qcs_sound_step (hw : (machine E).Reach G w) {i : NodeID} (hi : i ∈ (machine E).hosts)
    (hrec : ∀ m ∈ (w.host i).received, ∀ q ∈ m.qcs, QcSound E (machine E) w q)
    {o : NodeOut D} (ho : o ∈ (w.host i).outs) {m : Msg D} (hm : o.msg = some m) {q : BlockQC D}
    (hq : q ∈ m.qcs) : QcSound E (machine E) w q := by
  have hl := hw.local i
  have hs := (run_sourced (Local.pool_run hl)).2.2 o ho
  cases hs with
  | other hoth =>
    unfold Other at hoth
    rw [hm] at hoth
    cases m with
    | propose p =>
      obtain ⟨r, hr, hq⟩ := (turns.proposed_first hl ho hm hoth).qcs hq
      exact hrec _ hr q hq
    | report r =>
      obtain ⟨h₀, leader, hl₀, -, hpre, -, -, hlev⟩ := turns.reported hl ho hm
      rw [Option.mem_toList.1 hq] at hlev
      obtain ⟨m, hm, hqm⟩ := ((run_sourced (Local.pool_run hl₀)).2.1 _).qcs (qcLEvel_mem hlev)
      exact hrec m (hpre.subset hm) q hqm
    | _ => first | exact hoth.elim | exact absurd hq List.not_mem_nil
  | vote hp => cases hm; exact absurd hq List.not_mem_nil
  | @propose v batch hv hh =>
    cases hm
    have hq : q = v.makeQC (v.view, v.proposer) := by simpa [Msg.qcs, newProposeMsg] using hq
    rw [hq]
    exact makeQC_sound hw hi hv ⟨_, ho, by simp [newProposeMsg, hh]⟩
  | @finVote v hv hh =>
    cases hm
    have hq : q = v.makeQC (v.view, v.proposer) := by simpa [Msg.qcs, newFinVoteMsg] using hq
    rw [hq]
    refine makeQC_sound hw hi hv ⟨_, ho, ?_⟩
    simp [newFinVoteMsg, hh]
  | speedVote hf hqc => cases hm; exact absurd hq List.not_mem_nil

/-- **Every certificate in a message is sound.** -/
theorem qcs_sound (hw : (machine E).Reach G w) {i : NodeID} (hi : i ∈ (machine E).hosts)
    {o : NodeOut D} (ho : o ∈ (w.host i).outs) {m : Msg D} (hm : o.msg = some m) {q : BlockQC D}
    (hq : q ∈ m.qcs) : QcSound E (machine E) w q := by
  refine qcs_sound_step hw hi ?_ ho hm hq
  refine hw.received_induction (P := fun (w : NodeWorld D (SpbJob D)) _ (m : Msg D) =>
    ∀ q ∈ m.qcs, QcSound E (machine E) w q) (fun _ _ _ _ hle h q hq => (h q hq).mono hle) ?_ i hi
  intro w hw j hj hrec o ho _ m hom q hq
  exact qcs_sound_step hw hj hrec ho (Out.msg_of_msgTo hom) hq

theorem instance_qcs_sound (hw : (machine E).Reach G w) {i : NodeID} (hi : i ∈ (machine E).hosts)
    {k : Key} {q : BlockQC D} (hq : ((w.host i).st.spbInstances k).preQc = some q ∨
      ∃ height, ((w.host i).st.spbInstances k).blockQcs height = some q) :
    QcSound E (machine E) w q := by
  obtain ⟨m, hm, hqm⟩ := ((run_sourced (Local.pool_run (hw.local i))).2.1 k).qcs hq
  obtain ⟨j, hj, o, ho, hom⟩ := hw.sender hi hm
  exact qcs_sound hw hj ho (Out.msg_of_msgTo hom) hqm

/-! ## Links -/

/-- What the certificates of an instance stand for, when those received are linked. -/
theorem Held.names {l : List (Msg D)} {k : Key} {s : SPB D} (h : Held E l k s)
    (hl : ∀ m ∈ l, m.Linked) {height : ℕ} {q : BlockQC D} (hq : s.blockQcs height = some q) :
    q.Names k.1 height k.2 := by
  rcases height_cases (h.height_le hq) with rfl | rfl
  · rcases h.second with ⟨hn, -⟩ | ⟨p, qc, hp, hkey, hph, hpq, hsq, -⟩
    · rw [hn] at hq
      cases hq
    · obtain ⟨q', hq', hn⟩ := (hl _ hp).2 hph
      rw [hsq] at hq
      rw [hpq] at hq'
      cases hq
      cases hq'
      rw [hkey]
      exact hn
  · obtain ⟨⟨fv, hfv, hkey, hqc⟩, -⟩ := h.fin q hq
    rw [hkey]
    exact hl _ hfv q hqc

theorem linked_step (hw : (machine E).Reach G w) {i : NodeID} (hi : i ∈ (machine E).hosts)
    (hrec : ∀ m ∈ (w.host i).received, m.Linked) {o : NodeOut D} (ho : o ∈ (w.host i).outs)
    {m : Msg D} (hm : o.msg = some m) : m.Linked := by
  have hl := hw.local i
  have hs := (run_sourced (Local.pool_run hl)).2.2 o ho
  have hvote := (routed hw hi).2
  cases hs with
  | other hoth =>
    unfold Other at hoth
    rw [hm] at hoth
    cases m with
    | propose p => exact (turns.proposed_first hl ho hm hoth).linked hoth hrec
    | report r =>
      intro q hq
      obtain ⟨h₀, leader, hl₀, -, hpre, -, -, hlev⟩ := turns.reported hl ho hm
      have hheld := (run_sourced (Local.pool_run hl₀)).2.1 (r.view, leader)
      have hlink : ∀ m ∈ h₀.received, m.Linked := fun m hm => hrec m (hpre.subset hm)
      rw [hq] at hlev
      rcases qcLEvel_mem hlev with hpq | ⟨height, hbq⟩
      · rcases hheld.first with ⟨hn, -⟩ | ⟨p, hp, hkey, hph, hpp, -⟩
        · exact (Option.some_ne_none q (hpq.symm.trans hn)).elim
        · have := (hlink _ hp).1 hph q (hpp.symm.trans hpq)
          have := congrArg Prod.fst hkey
          dsimp only at this
          omega
      · exact le_of_eq (hheld.names hlink hbq).view_eq
    | finVote fv => exact hoth.elim
    | _ => trivial
  | vote hp => cases hm; trivial
  | propose batch hv hh =>
    cases hm
    refine ⟨fun h₁ => absurd h₁ (by simp [newProposeMsg]), fun _ => ⟨_, rfl, rfl, hh, hvote _ hv⟩⟩
  | finVote hv hh =>
    cases hm
    intro q hq
    cases hq
    exact ⟨rfl, hh, hvote _ hv⟩
  | speedVote hf hqc => cases hm; trivial

theorem linked_received (hw : (machine E).Reach G w) {i : NodeID} (hi : i ∈ (machine E).hosts) :
    ∀ m ∈ (w.host i).received, m.Linked := by
  refine hw.received_induction (P := fun (_ : NodeWorld D (SpbJob D)) _ (m : Msg D) => m.Linked)
    (fun _ _ _ _ _ h => h) ?_ i hi
  intro w hw j hj hrec o ho _ m hom
  exact linked_step hw hj hrec ho (Out.msg_of_msgTo hom)

end World

end Core

end S2Pac
