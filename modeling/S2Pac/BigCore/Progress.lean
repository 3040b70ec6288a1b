import S2Pac.BigSPB.Rest
import S2Pac.Emitted

/-!
# Where the big protocol can stop

The nodes that run (`Env.live`) send nothing that an honest node cannot take, so that none of them panics.
Where none of them can take a step any more, everything that was sent has been received, and each instance
of the view they are in has gone through to its speed votes: every node has voted for every live proposer,
made both of its certificates, opened the election and reported the leader's level. What is left is the
view change: the reports of the view are divided between the levels, so that none of the thresholds is
reached, or the main loop of a node waits for room on the channel of its commitor
(`stops_only_starved`).
-/

set_option linter.unusedSectionVars false

namespace S2Pac

open Lib

variable {D : Type} [DecidableEq D]

namespace BigCore

open BigSPB

variable {E : Env D} {w : NodeWorld D (BigJob D)}

section Honest

variable (hE : E.Honest) (hw : (machine E).Reach Machine.anyInput w)
include hE hw

theorem madeBy_of_received {i : NodeID} (hi : i ∈ E.members) {m : Msg D}
    (hm : m ∈ (w.host i).received) : ∃ j ∈ E.members, m.MadeBy E j ∧
      ∃ o ∈ (w.host j).outs, o.msg = some m := by
  obtain ⟨j, hj, o, ho, hmsg⟩ := hw.sender hi hm
  have hmsg := Out.msg_of_msgTo hmsg
  exact ⟨j, hj, (tells (hw.local j) o ho m hmsg).2, o, ho, hmsg⟩

theorem welcome {i : NodeID} (hi : i ∈ E.members) : ∀ m ∈ (w.host i).received, Welcome E m := by
  have hsound : ∀ i ∈ (machine E).hosts, ∀ m ∈ (w.host i).received, m.Sound E false true false :=
    hw.received_induction (P := fun _ _ m => Msg.Sound E false true false m)
      (fun _ _ _ _ _ h => h) fun w hw j hj hrec o ho _ m hom =>
        own_sound hj (hw.local j) hrec ho (Out.msg_of_msgTo hom)
  intro m hm
  obtain ⟨j, hj, hmade, -⟩ := madeBy_of_received hE hw hi hm
  exact ⟨hmade.passes hE hj false, hsound i hi m hm⟩

theorem filter_received {i : NodeID} (hi : i ∈ E.members) :
    (w.host i).received.filter (Msg.passes E false) = (w.host i).received :=
  List.filter_eq_self.2 fun m hm => (welcome hE hw hi m hm).1

theorem not_crashed {i : NodeID} (hi : i ∈ E.members) : (w.host i).st.crashed = false := by
  refine (robust hE.long).not_crashed hi (Delivered.of_local (hw.local i)) fun x hx => ?_
  obtain ⟨m, hm, rfl⟩ := List.mem_map.1 hx
  exact ⟨m, m.wire_msg, (welcome hE hw hi m hm).2⟩

theorem oneBlock {i : NodeID} (hi : i ∈ E.members) : OneBlock E (w.host i).received := by
  intro p p' hp hp' hview hauthor hheight
  have hb := (orderly hw).backed_of_received (E := E) hw hi hp
  have hb' := (orderly hw).backed_of_received (E := E) hw hi hp'
  rw [hview, hauthor, hheight] at hb
  rw [hb.unique (orderly hw) hb']

theorem noZeroVote {i : NodeID} (hi : i ∈ E.members) : NoZeroVote E (w.host i).received := by
  intro v hv
  obtain ⟨b, hb⟩ := (runs.voting (orderly hw) hw).backed_of_received (orderly hw) hw hi hv
  rw [← hb.hash]
  exact hE.nonzero b

end Honest

theorem follows (hw : (machine E).Reach Machine.anyInput w) {i : NodeID} (hi : i ∈ E.members)
    {p : ProposeMsg D} (hp : Msg.propose p ∈ (w.host i).received) (hh : p.height = HEIGHT_2) :
    Follows E bigRules (offer E w (p.view, p.author)) p.b := by
  obtain ⟨q, hq, hnames⟩ := (linked_received hw hi _ hp).2 hh
  have hmem : q ∈ (Msg.propose p).qcs := by simp [Msg.qcs, hq]
  obtain ⟨b, hb, -⟩ := received_sound hw hi _ hp q hmem
  rw [hnames.view_eq, hnames.height_eq, hnames.proposer_eq] at hb
  have hhash := (orderly hw).hash_of_backed hb
  intro s
  simp only [bigRules, hq, Option.map_some]
  exact ⟨Option.some_ne_none _, fun hs => by rw [hs, hhash, decide_eq_true rfl]⟩

theorem candid (hE : E.Honest) (hw : (machine E).Reach Machine.anyInput w) :
    Candid E bigRules (machine E) w where
  hosts := rfl
  reach := hw
  orderly := orderly hw
  voting := runs.voting (orderly hw) hw
  ballots := ballots E
  tells i := tells (hw.local i)
  follows _ hi _ hp hh := follows hw hi hp hh
  serves i hi := by
    have h := (conducts E).serves_outs (fun _ _ _ _ => takes) (hw.local i)
    rwa [filter_received hE hw hi] at h
  counted i hi := (tally hE.long (hw.local i) (welcome hE hw hi)).toCounted

/-! ## Nodes at rest -/

section Rest

variable (hE : E.Honest) (hw : (machine E).Reach Machine.anyInput w)
  (hrest : ∀ i ∈ E.live, AtRest w i)
include hE hw hrest

section Quorum

variable (hq : E.hightThreshold ≤ E.live.card)
include hq

theorem offered_second {k : Key} (hk : k.2 ∈ E.live) (h₁ : ∃ p, Offered w k HEIGHT_1 p) :
    ∃ p, Offered w k HEIGHT_2 p := by
  have hC := candid hE hw
  obtain ⟨y, hy⟩ := hC.exists_books hrest hk k
  have hr := hC.books_intake hk hy
  have hqc := hC.certified hrest hq hk (Env.mem_live.1 hk).1 (Nat.zero_le _) h₁ h₁
  rw [← hy.inst] at hqc
  have hdone : pending y.tasks k (isNext true) + y.outs.countP (done (isNext true)) =
      ((y.inst k).blockQcs HEIGHT_1).isSome.toNat * 1 :=
    next_done hy.serves hr fun v => by simp [bigRules]
  rw [Option.isSome_iff_ne_none.2 hqc, hy.rest] at hdone
  have hpos : 0 < y.outs.countP (done (isNext true)) := by
    simp only [pending, List.countP_nil, Bool.toNat_true] at hdone
    omega
  obtain ⟨⟨j, os⟩, he, hd⟩ := List.countP_pos_iff.1 hpos
  obtain ⟨-, s, s', js, hstep⟩ := (serving_fits hy.serves.run hr).2.2 _ he
  obtain ⟨⟨l, hj⟩, hsent⟩ := hy.log _ he
  have hd : isNext true j = true := hd
  cases j with
  | newPropose v =>
    obtain ⟨-, hkv, -, -⟩ := hj
    cases hstep with
    | crash _ hpan => exact hpan.elim
    | newPropose _ batch =>
      refine ⟨_, ?_, _, hsent _ (List.mem_singleton_self _), rfl⟩
      have hview : (v.view, k.2) = k := Prod.ext (congrArg Prod.fst hkv).symm rfl
      simp [newProposeMsg, hview]
  | callBack => cases hd
  | _ => cases hd

theorem complete_live {view : ℤ} (hall : ∀ p ∈ E.live, ∃ q, Offered w (view, p) HEIGHT_1 q) :
    Complete E w view E.live := by
  intro p hp
  refine ⟨(Env.mem_live.1 hp).1, fun height hh => ?_⟩
  rcases height_cases hh with rfl | rfl
  · exact hall p hp
  · exact offered_second hE hw hrest hq (k := (view, p)) hp (hall p hp)

theorem reported {i : NodeID} (hi : i ∈ E.live) {view : ℤ}
    (hall : ∀ p ∈ E.live, ∃ q, Offered w (view, p) HEIGHT_1 q) :
    ∃ o ∈ (w.host i).outs, o.carries (Msg.isReportOf view) = true := by
  have hm := (Env.mem_live.1 hi).1
  refine (reports (hw.local i) (oneBlock hE hw hm) (noZeroVote hE hw hm)
    ((candid hE hw).led hrest hq hq (complete_live hE hw hrest hq hall) hE hi)).resolve_left
    fun hb => ?_
  rw [(hrest i hi).idle] at hb
  cases hb

end Quorum

/-! ### The view -/

theorem reportNums_eq {i j : NodeID} (hi : i ∈ E.live) (hj : j ∈ E.live) (view : ℤ) (level : ℕ) :
    (w.host i).st.reportNums view level =
      (w.host j).received.countP (Msg.isReport view level) := by
  have hm := (Env.mem_live.1 hi).1
  rw [(tally hE.long (hw.local i) (welcome hE hw hm)).reports]
  refine (hrest i hi).quiet.countP_congr hw hm (hrest j hj).quiet (Env.mem_live.1 hj).1
    fun l hl o ho => ?_
  rw [(tells (hw.local l) o ho).brings, (tells (hw.local l) o ho).brings]

/-- **The live nodes are in one view**: who is ahead has left the view before with reports that all have. -/
theorem view_le {i j : NodeID} (hi : i ∈ E.live) (hj : j ∈ E.live) :
    (w.host j).st.view ≤ (w.host i).st.view := by
  by_contra hlt
  obtain ⟨o, ho, hc⟩ := turns.proposed (hw.local j) (hrest j hj).booted
  obtain ⟨m, hmsg, hP⟩ := Out.carries_iff.1 hc
  cases m with
  | propose p =>
    obtain ⟨hk, hh⟩ : (p.view, p.author) = ((w.host j).st.view, j) ∧ p.height = HEIGHT_1 :=
      of_decide_eq_true hP
    have hv : p.view = (w.host j).st.view := congrArg Prod.fst hk
    have hnonneg := (turns.started (hw.local i)).2.1
    rcases (turns.proposed_first (hw.local j) ho hmsg hh).parent with ⟨h0, -⟩ | ⟨r, hr, hrv, -, hjust⟩
    · omega
    · -- the reports that let `j` leave `r.view` have let `i` leave it too
      have hbelow : Turns.Below E ((w.host i).st.reportNums r.view) :=
        turns.below (hw.local i) (by omega)
      obtain ⟨h2, h1, h0⟩ := hbelow
      rw [reportNums_eq hE hw hrest hi hj] at h2 h1 h0
      rcases hjust with hlev | ⟨hlev | hlev, hle⟩
      · have hpos : 0 < (w.host j).received.countP (Msg.isReport r.view LEVEL_2) :=
          List.countP_pos_iff.2 ⟨_, hr, by simp [hlev]⟩
        omega
      · rw [hlev] at hle
        omega
      · rw [hlev] at hle
        omega
  | _ => cases hP

end Rest

/-! ## Where nothing moves -/

/-- The commitor asks again and again for a block that is not in the store. -/
def Asks (c : BigNode D) : Prop :=
  ∃ queue current qc, c.commitor.work = .walk queue current ∧ current.qc = some qc ∧
    getBlock c.store qc.parentBlockHash = none

/-- What a node does by itself. That the commitor asks again and the pool makes a batch does not count. -/
def Toils (c : BigNode D) : Act → Prop
  | .makeBatch _ => False
  | .commitor => ¬ Asks c
  | _ => True

/-- **The main loop and the commitor wait for each other**: `Commit` waits for room on the channel, the
commitor for a block, and the proposal of the block for the main loop. -/
def Jammed (E : Env D) (w : NodeWorld D (BigJob D)) (i : NodeID) : Prop :=
  (∃ leader view height b, (w.host i).st.pc = .commit leader view height b) ∧
    chanCap ≤ (w.host i).st.commitor.blocksChan.length ∧
    ∃ queue current qc p, (w.host i).st.commitor.work = .walk queue current ∧
      current.qc = some qc ∧ getBlock (w.host i).st.store qc.parentBlockHash = none ∧
      (i, Msg.propose p) ∈ w.net ∧ p.b.hash E = qc.parentBlockHash

/-- **The view change has failed**: the live nodes are in one view and have certified both blocks of each
other, they have all reports of each other, and these are too few at every level. -/
structure Starved (E : Env D) (w : NodeWorld D (BigJob D)) (view : ℤ) : Prop where
  view_eq : ∀ i ∈ E.live, (w.host i).st.view = view
  certified : ∀ i ∈ E.live, ∀ p ∈ E.live, ((w.host i).st.spbInstances (view, p)).decCert = true
  reported : ∀ i ∈ E.live, ∀ j ∈ E.live, ∃ r, Msg.report r ∈ (w.host i).received ∧
    r.author = j ∧ r.view = view
  below : ∀ i ∈ E.live,
    Turns.Below E fun level => (w.host i).received.countP (Msg.isReport view level)

/-- The commitor of the big protocol searches no references. -/
theorem not_searching {G : Machine.Guard NodeID (BigNode D) (Msg D) Act (Event D)} {self : NodeID}
    {h : NodeHost D (BigJob D)} (hl : (machine E).Local G self h) (queue : List (Block D)) :
    h.st.commitor.work ≠ .bfs queue := by
  refine (conducts E).log_induction (fun _ _ => step_of_commitor)
    (R := fun _ c _ => c.work ≠ .bfs queue) (fun hw => by cases hw) (fun _ _ _ _ ih => ih)
    (fun _ _ _ _ _ ih _ hc => ?_) (fun _ _ _ _ _ _ ih _ hr => ?_) hl
  · rw [Commitor.work_of_commit hc]
    exact ih
  · cases Commitor.step_of_run hr with
    | drop _ _ _ => exact ih
    | wait _ _ _ => exact ih
    | _ => exact fun hw => by cases hw

section Enabled

variable {c : BigNode D} {self : NodeID}

variable (E self) in
theorem exists_runJob (c : BigNode D) (k : Key) {j : BigJob D} (hj : j ≠ .callBack) :
    ∃ r, BigSPB.runJob E self c k j = some r := by
  cases j with
  | callBack => exact absurd rfl hj
  | _ => exact ⟨_, rfl⟩

variable (E) in
theorem exists_run (st : Store D) {cm : Commitor D} (hwork : ∀ queue, cm.work ≠ .bfs queue)
    (hchan : cm.blocksChan ≠ []) : ∃ r, Commitor.run E st cm = some r := by
  rw [← Option.ne_none_iff_exists']
  intro hnone
  unfold Commitor.run at hnone
  split at hnone
  · split at hnone
    · next hempty => exact hchan hempty
    · split at hnone <;> cases hnone
  · split at hnone
    · cases hnone
    · split at hnone
      · cases hnone
      · split at hnone <;> cases hnone
  · cases hnone
  · cases hnone
  · next hw => exact hwork _ hw

variable (E self) in
/-- `processCoin` goes on, or waits in `Commit`. -/
theorem exists_main (hgather : ∀ view height i refs, c.pc ≠ .gather view height i refs)
    (hidle : c.pc ≠ .idle) : (∃ r, main E self c = some r) ∨
      (∃ leader view height b, c.pc = .commit leader view height b) ∧
        chanCap ≤ c.commitor.blocksChan.length := by
  by_cases hreport : ∃ leader view, c.pc = .report leader view
  · obtain ⟨leader, view, hpc⟩ := hreport
    exact Or.inl ⟨_, by simp only [main, hpc]; rfl⟩
  · have hno : ∀ leader view, c.pc ≠ .report leader view := fun leader view hpc =>
      hreport ⟨leader, view, hpc⟩
    rcases Node.exists_stepCoin (fun c leader view => (c.spbInstances (view, leader)).decCert)
      hidle hno hgather with ⟨r, hr⟩ | hfull
    · refine Or.inl ⟨r, ?_⟩
      rw [← hr, main]
      split
      · next leader view hpc => exact absurd hpc (hno leader view)
      · rfl
    · exact Or.inr hfull

section Act

variable (hc : c.crashed = false)
include hc

theorem act_boot : act E self c .boot = c.boot E self := by simp [act, hc]

theorem act_task {t : Key × BigJob D} {ts : List (Key × BigJob D)} (h : c.tasks = t :: ts) :
    act E self c (.task 0) = BigSPB.runJob E self { c with tasks := ts } t.1 t.2 := by
  simp [act, hc, h]

theorem act_main : act E self c .main = main E self c := by simp [act, hc]

theorem act_commitor : act E self c .commitor = c.stepCommitor (Commitor.run E) := by simp [act, hc]

end Act

end Enabled

section Stuck

variable (hE : E.Honest) (hw : (machine E).Reach Machine.anyInput w)
include hE hw

/-- A block that a node has a certificate of and not in its store is on its way to the node. -/
theorem inFlight_of_missing {i : NodeID} (hi : i ∈ E.members) {b : Block D}
    (hb : Arrived (w.host i).received b) {qc : BlockQC D} (hqc : b.qc = some qc)
    (hnone : getBlock (w.host i).st.store qc.parentBlockHash = none) :
    ∃ p, (i, Msg.propose p) ∈ w.net ∧ p.b.hash E = qc.parentBlockHash := by
  obtain ⟨p₀, hp₀, rfl⟩ := hb
  have hmem : qc ∈ (Msg.propose p₀).qcs := by simp [Msg.qcs, hqc]
  obtain ⟨b, hback, -⟩ := received_sound hw hi _ hp₀ qc hmem
  obtain ⟨o, ho, p, hmsg, rfl⟩ := hback.proposed
  have hsent : 0 < (machine E).sentTo w i fun m => decide (m = .propose p) := by
    refine Finset.sum_pos' (fun _ _ => Nat.zero_le _) ⟨_, List.mem_toFinset.2 hback.host, ?_⟩
    refine List.countP_pos_iff.2 ⟨o, ho, ?_⟩
    rw [(tells (hw.local _) o ho).brings]
    exact Out.carries_iff.2 ⟨_, hmsg, by simp⟩
  rw [← hw.conserve hi] at hsent
  have hnot : (w.host i).received.countP (fun m => decide (m = .propose p)) = 0 := by
    refine List.countP_eq_zero.2 fun m hm he => ?_
    obtain rfl := of_decide_eq_true he
    have hpass := List.mem_filter.2 ⟨hm, (welcome hE hw hi _ hm).1⟩
    obtain ⟨b', hb'⟩ := filedAll_found hpass
    rw [← (conducts E).store_eq (hw.local i), hback.hash, hnone] at hb'
    cases hb'
  rw [hnot, Nat.zero_add] at hsent
  obtain ⟨⟨i', m⟩, hnet, hP⟩ := List.countP_pos_iff.1 hsent
  obtain ⟨rfl, rfl⟩ : i' = i ∧ m = .propose p := by simpa using hP
  exact ⟨p, hnet, hback.hash⟩

theorem jammed_or_atRest {i : NodeID} (hi : i ∈ E.live) (hstuck : ¬ CanMove (machine E) Toils w i) :
    Jammed E w i ∨ AtRest w i := by
  obtain ⟨hm, hlive⟩ := Env.mem_live.1 hi
  have hc := not_crashed hE hw hm
  have hact : ∀ a, Toils (w.host i).st a → act E i (w.host i).st a = none := by
    intro a ha
    by_contra hne
    obtain ⟨r, hr⟩ := Option.ne_none_iff_exists'.1 hne
    exact hstuck (Or.inl ⟨a, r, ha, hr⟩)
  have hbooted : (w.host i).st.booted = true := by
    have h := hact .boot trivial
    rw [act_boot hc] at h
    by_contra hb
    simp [Node.boot, hb, not_lt.2 hlive] at h
  have htasks : (w.host i).st.tasks = [] := by
    have h := hact (.task 0) trivial
    cases hts : (w.host i).st.tasks with
    | nil => rfl
    | cons t ts =>
      obtain ⟨r, hr⟩ := exists_runJob E i { (w.host i).st with tasks := ts } t.1
        (not_callBack (hw.local i) (hts ▸ List.mem_cons_self))
      rw [act_task hc hts, hr] at h
      cases h
  by_cases hidle : (w.host i).st.pc = .idle
  · refine Or.inr ⟨hbooted, hidle, htasks, fun m hnet => hstuck (Or.inr ⟨m, ?_⟩)⟩
    have hready : (w.host i).st.ready = true := by
      simp [Node.ready, hbooted, hc, hidle]
    exact ⟨_, hnet, if_pos hready⟩
  · left
    have h := hact .main trivial
    rw [act_main hc] at h
    rcases exists_main E i (turns.not_gathering (hw.local i)) hidle with
      ⟨r, hr⟩ | ⟨hcommit, hlen⟩
    · rw [hr] at h
      cases h
    · have hne : (w.host i).st.commitor.blocksChan ≠ [] :=
        List.ne_nil_of_length_pos ((by decide : 0 < chanCap).trans_le hlen)
      obtain ⟨r, hr⟩ := exists_run E (w.host i).st.store (not_searching (hw.local i)) hne
      have hasks : Asks (w.host i).st := by
        by_contra hno
        have h := hact .commitor hno
        rw [act_commitor hc] at h
        simp [Node.stepCommitor, hr] at h
      obtain ⟨queue, current, qc, hwork, hqc, hnone⟩ := hasks
      have harrived : Arrived (w.host i).received current :=
        ((conducts E).source (Commitor.draws E) (fun _ _ => step_of_commitor) (hw.local i)).1 _
          (by simp [Commitor.blocks, Work.blocks, hwork])
      obtain ⟨p, hnet, hhash⟩ := inFlight_of_missing hE hw hm harrived hqc hnone
      exact ⟨hcommit, hlen, queue, current, qc, p, hwork, hqc, hnone, hnet, hhash⟩

theorem starved_of_rest (hn : 1 ≤ E.n) (hf : E.faults ≤ E.tolerated)
    (hrest : ∀ i ∈ E.live, AtRest w i) : ∃ view, Starved E w view := by
  have hq := Env.hightThreshold_le_live hn hf
  obtain ⟨i₀, hi₀⟩ : E.live.Nonempty := Finset.card_pos.1 ((Nat.succ_pos _).trans_le hq)
  have hview : ∀ i ∈ E.live, (w.host i).st.view = (w.host i₀).st.view := fun i hi =>
    le_antisymm (view_le hE hw hrest hi₀ hi) (view_le hE hw hrest hi hi₀)
  have hall : ∀ p ∈ E.live, ∃ q, Offered w ((w.host i₀).st.view, p) HEIGHT_1 q := by
    intro p hp
    obtain ⟨o, ho, hc⟩ := turns.proposed (hw.local p) (hrest p hp).booted
    obtain ⟨m, hmsg, hP⟩ := Out.carries_iff.1 hc
    rw [hview p hp] at hP
    cases m with
    | propose q => exact ⟨q, hP, o, ho, hmsg⟩
    | _ => cases hP
  refine ⟨(w.host i₀).st.view, hview, fun i hi p hp => ?_, fun i hi j hj => ?_, fun i hi => ?_⟩
  · have hC := candid hE hw
    obtain ⟨hm, hboth⟩ := complete_live hE hw hrest hq hall p hp
    rw [SPB.decCert, Bool.and_eq_true, Option.isSome_iff_ne_none, Option.isSome_iff_ne_none]
    exact ⟨hC.certified hrest hq hi hm (Nat.zero_le _) (hboth _ (Nat.zero_le _)) (hall p hp),
      hC.certified hrest hq hi hm le_rfl (hboth _ le_rfl) (hall p hp)⟩
  · obtain ⟨o, ho, hc⟩ := reported hE hw hrest hq hj hall
    obtain ⟨m, hmsg, hP⟩ := Out.carries_iff.1 hc
    cases m with
    | report r =>
      exact ⟨r, (candid hE hw).received_of_sent hrest hi (Env.mem_live.1 hj).1 ho hmsg,
        (tells (hw.local j) o ho _ hmsg).2.author, of_decide_eq_true hP⟩
    | _ => cases hP
  · obtain ⟨h2, h1, h0⟩ := turns.below (hw.local i) (hview i hi).le
    rw [reportNums_eq hE hw hrest hi hi] at h2 h1 h0
    exact ⟨h2, h1, h0⟩

/-- **Where the big protocol can stop.** In a run of honest nodes of which at most `f` are silent, no node
panics, and some live node can take a step, unless the main loop and the commitor of a live node wait for
each other or the reports of the view are divided between the levels. -/
theorem stops_only_starved (hn : 1 ≤ E.n) (hf : E.faults ≤ E.tolerated) :
    (∀ i ∈ E.live, (w.host i).st.crashed = false) ∧
      ((∃ i ∈ E.live, CanMove (machine E) Toils w i) ∨ (∃ i ∈ E.live, Jammed E w i) ∨
        ∃ view, Starved E w view) := by
  refine ⟨fun i hi => not_crashed hE hw (Env.mem_live.1 hi).1, ?_⟩
  by_contra hno
  obtain ⟨hmove, hno⟩ := not_or.1 hno
  obtain ⟨hjam, hstarved⟩ := not_or.1 hno
  refine hstarved (starved_of_rest hE hw hn hf fun i hi => ?_)
  exact (jammed_or_atRest hE hw hi fun h => hmove ⟨i, hi, h⟩).resolve_left fun h => hjam ⟨i, hi, h⟩

end Stuck

end BigCore

end S2Pac
