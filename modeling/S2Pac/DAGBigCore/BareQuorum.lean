import S2Pac.DAGBigCore.Progress

/-!
# The DAG variant with the fewest nodes it can do with

When `f` of `3 * f + 1` nodes are silent, the nodes that run are just enough for a quorum, and every quorum
is made of all of them. A node then cannot learn the leader of a view too early: the shares that it needs
are those of all nodes that run, its own among them, and it gives its share after it has made the height-2
certificates of as many proposers as there are nodes that run. So the coin finds what it needs (`ripe`), no
view is missed, and the nodes do not stop (`never_stops`). With more nodes than a quorum they can
(`stays_in_view`).
-/

set_option linter.unusedSectionVars false

namespace S2Pac

open Lib BigSPB

variable {D : Type} [DecidableEq D]

namespace DAGBigCore

variable {E : Env D} {self : NodeID}
  {G : Machine.Guard NodeID (BigNode D) (Msg D) Act (Event D)} {h : NodeHost D (BigJob D)}

/-! ## The nodes that are silent -/

/-- **A silent node stays silent**: it is not started, and so it takes no message and has nothing to do. -/
theorem asleep (hl : (machine E).Local G self h) (hs : self < E.faults) :
    h.st.booted = false ∧ h.st.tasks = [] ∧ ∀ o ∈ h.outs, o.msg = none := by
  induction hl with
  | start => exact ⟨rfl, rfl, by simp [Machine.start]⟩
  | @recv h m s o _ _ hr ih =>
    have hb := (Node.idle_of_ready (handle_of_recv hr).1).1
    rw [ih.1] at hb
    cases hb
  | @act h a s o hl _ hr ih =>
    obtain ⟨hb, htasks, hout⟩ := ih
    have hidle := ((ordered hl).asleep hb).2.1
    have hready : h.st.ready = false := by simp [Node.ready, hb]
    have hr : act E self h.st a = some (s, o) := hr
    cases acting hr with
    | boot _ hle => exact absurd hs (not_lt.2 hle)
    | task hi _ _ _ => simp [htasks] at hi
    | coin hc => cases hc with | _ hpc => simp [hidle] at hpc
    | report _ hpc | leave _ hpc | ask _ hpc _ | propose _ hpc _ _ | few _ hpc _ _ =>
      simp [hidle] at hpc
    | callback _ hready' _ => simp [hready] at hready'
    | commitor _ =>
      refine ⟨hb, htasks, fun o' ho' => ?_⟩
      rcases List.mem_append.1 ho' with ho' | ho'
      · exact hout o' ho'
      · obtain ⟨b, -, rfl⟩ := List.mem_map.1 ho'
        rfl
    | makeBatch txs => exact ⟨hb, htasks, by simpa using hout⟩

/-! ## Where the main loop is -/

theorem busy_advanceView {c : BigNode D} {view' : ℤ} {height : ℕ} {view : ℤ} :
    Turns.busy (advanceView c view' height).pc ≠ some view := by
  rcases advanceView_cases c view' height with ⟨-, -, he⟩ | he <;> rw [he] <;>
    exact (Option.some_ne_none _).symm

/-- **The main loop is busy with a view whose leader the elector knows.** -/
theorem led_of_busy (hl : (machine E).Local G self h) {view : ℤ}
    (hb : Turns.busy h.st.pc = some view) : h.st.eletor.leaders view ≠ none := by
  revert hb
  refine induction (P := fun h => Turns.busy h.st.pc = some view → h.st.eletor.leaders view ≠ none)
    (fun hb => by cases hb) ?_ hl
  intro h x c' os _ ih _ _ hm hb
  cases hm with
  | aside hs _ =>
    rw [hs.eletor]
    exact ih (hs.pc ▸ hb)
  | weak hs =>
    rw [hs.eletor]
    exact ih (hs.pc ▸ hb)
  | shares hadd hres =>
    rw [leaders_of_shares hadd hres]
    exact ih hb
  | elected _ _ hadd hne =>
    obtain rfl := Option.some.inj hb
    cases Elector.adds_of_add hadd with
    | kept _ => exact absurd rfl hne
    | elected _ _ _ _ => simp
  | process hs =>
    have hel : c'.eletor = h.st.eletor := by cases hs <;> rfl
    rw [hel]
    exact ih (Turns.busy_of_coinStep hs hb)
  | leave _ => exact absurd hb busy_advanceView
  | advance _ _ _ _ _ => exact absurd hb busy_advanceView
  | ask _ _ => cases hb
  | propose _ _ _ _ => cases hb
  | few _ _ _ => cases hb
  | _ => exact ih hb

theorem weakVotes_mono {h' : NodeHost D (BigJob D)} (hs : (machine E).LocalStep G self h h') (view : ℤ)
    (node : NodeID) : h.st.weakVotes view node ≤ h'.st.weakVotes view node := by
  obtain ⟨x, r, -, hr, rfl⟩ := hs
  obtain ⟨c', os, rfl, hm⟩ := move_of_input hr
  show h.st.weakVotes view node ≤ c'.weakVotes view node
  cases hm with
  | aside hs _ => rw [hs.weakVotes]
  | @weak p _ hs =>
    rw [hs.weakVotes]
    show _ ≤ weakVotesOf h.st.weakVotes p view node
    unfold weakVotesOf
    split
    · rw [addWeakVotes_foldl]
      exact Nat.le_add_right _ _
    · exact le_rfl
  | process hs => cases hs <;> exact le_rfl
  | leave _ => simp
  | advance _ _ _ _ hs => simp [hs.weakVotes]
  | _ => exact le_rfl

/-- What the tests of `processCoin` say of the leader: a quorum has told of its height-2 certificate, or a
height-2 block refers to it. -/
def Noted (c : BigNode D) (leader : NodeID) (view : ℤ) (height : ℕ) : Prop :=
  height ≤ HEIGHT_2 ∧ ((c.spbInstances (view, leader)).speedCert = true ∨
    0 < getWeakVotes c view leader)

theorem noted (hl : (machine E).Local G self h) {leader : NodeID} {view : ℤ} {height : ℕ}
    (hpc : h.st.pc = .fetch leader view height) : Noted h.st leader view height := by
  have hcourse := ((conducts E).handed_induction (R := fun _ => True) (fun _ _ _ _ => trivial)
    (Q := Noted) (P := fun _ _ _ _ _ => True) (fun c leader view hs => ⟨le_rfl, Or.inl hs⟩)
    (fun c leader view hs => ⟨Nat.zero_le _, Or.inr ?_⟩) (fun _ _ _ _ _ _ _ _ _ => trivial)
    (fun h h' _ hs _ leader view height hn => ⟨hn.1, ?_⟩)
    (fun _ _ _ _ _ _ _ _ _ _ => trivial) hl trivial).2
  · rw [hpc] at hcourse
    exact hcourse
  · exact lt_of_lt_of_le (Nat.succ_pos _) (of_decide_eq_true hs)
  · exact hn.2.imp ((conducts E).step_grows hs _).speedCert fun hpos =>
      hpos.trans_le (weakVotes_mono hs view leader)

section World

variable {w : NodeWorld D (BigJob D)} (hw : (machine E).Reach Machine.anyInput w)
include hw

theorem live_of_sent {j : NodeID} (hj : j ∈ E.members) {o : NodeOut D} (ho : o ∈ (w.host j).outs)
    {m : Msg D} (hm : o.msg = some m) : j ∈ E.live := by
  refine Env.mem_live.2 ⟨hj, not_lt.1 fun hlt => ?_⟩
  rw [(asleep (hw.local j) hlt).2.2 o ho] at hm
  cases hm

theorem live_of_proposed {j : NodeID} (hj : j ∈ E.members) {b : Block D} (hb : Proposed w j b) :
    j ∈ E.live := by
  obtain ⟨o, ho, p, hm, -⟩ := hb
  exact live_of_sent hw hj ho hm

theorem live_of_certified {i : NodeID} (hi : i ∈ E.members) {view : ℤ} {p : NodeID} {height : ℕ}
    (hc : ((w.host i).st.spbInstances (view, p)).blockQcs height ≠ none) :
    p ∈ E.live ∧ (view, height) ∈ proposalKeys (w.host p).outs ∧
      ∃ q, QcSound E (machine E) w q ∧ (q.view, q.proposer) = (view, p) ∧ q.height = height := by
  obtain ⟨q, hq⟩ := Option.ne_none_iff_exists'.1 hc
  have hsound := runs.blockQcs_sound (orderly hw) hw hi (hw.local i) List.prefix_rfl hq
  have hnames := runs.names (hw.local i) hq
  have hkey : (q.view, q.proposer) = (view, p) := Prod.ext hnames.view_eq hnames.proposer_eq
  refine ⟨?_, ?_, q, hsound, hkey, hnames.height_eq⟩
  all_goals
    obtain ⟨b, hb, -⟩ := hsound
    rw [hnames.view_eq, hnames.height_eq, (Prod.mk.inj hkey).2] at hb
  · exact live_of_proposed hw hb.host hb.proposed
  · obtain ⟨p', ⟨hP, o, ho, hm⟩, -⟩ := (orderly hw).offered_of_backed hb
    have hk := mem_proposalKeys ho hm
    obtain ⟨hpk, hph⟩ : (p'.view, p'.author) = (view, p) ∧ p'.height = height := of_decide_eq_true hP
    rwa [(Prod.mk.inj hpk).1, hph] at hk

theorem live_of_noted {i : NodeID} (hm : i ∈ E.members) {leader : NodeID} {view : ℤ} {height : ℕ}
    (hn : Noted (w.host i).st leader view height) : leader ∈ E.live := by
  rcases hn.2 with hs | hpos
  · exact (live_of_certified hw hm (certified_of_speedCert (runs.pool (hw.local i)) hs)).1
  · obtain ⟨S, -, hcard, hendorse⟩ := exists_endorsers hw hm (Nat.succ_le_of_lt hpos)
    obtain ⟨j, hj⟩ := Finset.card_pos.1 hcard
    obtain ⟨b, -, -, -, hleader, c, hc, -⟩ := hendorse j hj
    exact live_of_proposed hw hleader hc

end World

/-! ## Quorums are made of all nodes that run -/

section Bare

variable {w : NodeWorld D (BigJob D)} (hE : E.Honest) (hw : (machine E).Reach Machine.anyInput w)
  (hbare : E.live.card = E.hightThreshold)
include hw hbare

omit hw in
theorem eq_live {S : Finset NodeID} (hS : S ⊆ E.live) (hcard : E.hightThreshold ≤ S.card) :
    S = E.live :=
  Finset.eq_of_subset_of_card_le hS (hbare.trans_le hcard)

theorem referred_of_live {j : NodeID} (hj : j ∈ E.live) {b : Block D} (hb : Proposed w j b)
    (hlater : b.view ≠ 0 ∨ b.height ≠ HEIGHT_1) {p : NodeID} (hp : p ∈ E.live) :
    ∃ c, Proposed w p c ∧ (c.view, c.height) = layerBefore b.view b.height ∧ RefersTo w b c := by
  obtain ⟨S, hS, hcard, hrefer⟩ :=
    exists_quorum_of_references hw (Env.mem_live.1 hj).1 hb hlater
  have hlive : S ⊆ E.live := by
    intro i hi
    obtain ⟨c, hc, -⟩ := hrefer i hi
    exact live_of_proposed hw (List.mem_toFinset.1 (hS hi)) hc
  exact hrefer p (eq_live hbare hlive hcard ▸ hp)

theorem voted_of_sound {q : BlockQC D} (hq : QcSound E (machine E) w q) {i : NodeID}
    (hi : i ∈ E.live) :
    ∃ o ∈ (w.host i).outs, o.carries (Msg.isVote (q.view, q.proposer) q.height) = true := by
  obtain ⟨S, hS, hcard, hvotes⟩ := hq.voters hw (orderly hw)
  have hlive : S ⊆ E.live := by
    intro j hj
    obtain ⟨o, ho, hc⟩ := hvotes j hj
    obtain ⟨m, hm, -⟩ := Out.carries_iff.1 hc
    exact live_of_sent hw (List.mem_toFinset.1 (hS hj)) ho hm
  exact hvotes i (eq_live hbare hlive hcard ▸ hi)

include hE

/-- **Who knows the leader of a view has the shares of all**, -/
theorem opened_of_led {i : NodeID} (hi : i ∈ E.live) {view : ℤ}
    (hled : (w.host i).st.eletor.leaders view ≠ none) {j : NodeID} (hj : j ∈ E.live) :
    ∃ o ∈ (w.host j).outs, o.carries (Msg.isElect view) = true := by
  have hm := (Env.mem_live.1 hi).1
  have hC := candid hE hw
  obtain ⟨hkept, hnodup⟩ := Elector.kept_spec view (BigCore.shares (w.host i).received)
  -- what is kept was sent by its author
  have hsent : ∀ e ∈ Elector.kept view (BigCore.shares (w.host i).received), e.author ∈ E.live ∧
      ∃ o ∈ (w.host e.author).outs, o.carries (Msg.isElect view) = true := by
    intro e he
    obtain ⟨hmem, hv⟩ := hkept e he
    obtain ⟨l, hl, o, ho, hmsg⟩ := hw.sender hm (BigCore.mem_shares.1 hmem)
    have hmsg := Out.msg_of_msgTo hmsg
    have ha : e.author = l := (hC.tells l o ho _ hmsg).2.author
    rw [ha]
    exact ⟨live_of_sent hw hl ho hmsg, o, ho, Out.carries_iff.2 ⟨_, hmsg, by simp [hv]⟩⟩
  have hmany : E.hightThreshold ≤ (Elector.kept view (BigCore.shares (w.host i).received)).length := by
    by_contra hfew
    rw [((hC.counted i hm).elects view).leaders, if_neg hfew] at hled
    exact hled rfl
  have hall := eq_live hbare (S := ((Elector.kept view (BigCore.shares (w.host i).received)).map
    ElectMsg.author).toFinset) (fun a ha => by
      obtain ⟨e, he, rfl⟩ := List.mem_map.1 (List.mem_toFinset.1 ha)
      exact (hsent e he).1) (by rwa [List.toFinset_card_of_nodup hnodup, List.length_map])
  obtain ⟨e, he, rfl⟩ := List.mem_map.1 (List.mem_toFinset.1 (hall ▸ hj))
  exact (hsent e he).2

/-- **and the height-2 certificates of all.** -/
theorem certified_of_led {i : NodeID} (hi : i ∈ E.live) {view : ℤ}
    (hled : (w.host i).st.eletor.leaders view ≠ none) {p : NodeID} (hp : p ∈ E.live) :
    ((w.host i).st.spbInstances (view, p)).blockQcs HEIGHT_2 ≠ none := by
  have hm := (Env.mem_live.1 hi).1
  have hnums := (ballots E).le_of_elect (hw.local i) (opened_of_led hE hw hbare hi hled hi)
  rw [((candid hE hw).counted i hm).speedVotes] at hnums
  -- a speed vote of its own that has come back
  have hown : ∀ m ∈ (w.host i).received, BigCore.isSpeedVoteOf view i m = true →
      ∃ o ∈ (w.host i).outs, o.carries (Msg.isSpeedVote (view, m.proposerOf)) = true := by
    intro m hrec hP
    obtain ⟨j, hj, o, ho, hto⟩ := hw.sender hm hrec
    have hmsg := Out.msg_of_msgTo hto
    have ha := (tells (hw.local j) o ho _ hmsg).2.author
    cases m with
    | speedVote sv =>
      obtain ⟨hv, hauth⟩ : sv.view = view ∧ sv.author = i := of_decide_eq_true hP
      obtain rfl : i = j := hauth.symm.trans ha
      exact ⟨o, ho, Out.carries_iff.2 ⟨_, hmsg, by simp [hv, Msg.proposerOf]⟩⟩
    | _ => cases hP
  have hcert : ∀ m ∈ (w.host i).received, BigCore.isSpeedVoteOf view i m = true →
      ((w.host i).st.spbInstances (view, m.proposerOf)).blockQcs HEIGHT_2 ≠ none := fun m hrec hP =>
    certified (runs.pool (hw.local i)) (Or.inr (hown m hrec hP))
  have honce : ∀ a, (w.host i).received.countP
      (fun m => BigCore.isSpeedVoteOf view i m && decide (m.proposerOf = a)) ≤ 1 := by
    intro a
    refine (orderly hw).received_le_one hw (k := (view, i)) (fun m hP j hs => ?_) (fun _ => ?_) hm
    · cases m with
      | speedVote sv =>
        obtain ⟨hP, -⟩ := Bool.and_eq_true_iff.1 hP
        exact (Eq.symm hs).trans (of_decide_eq_true hP).2
      | _ => simp at hP
    · refine (List.countP_mono_left fun o _ hc => ?_).trans
        (speedVote_le_one (k := (view, a)) (runs.pool (hw.local i)))
      obtain ⟨m, hmsg, hP⟩ := Out.carries_iff.1 hc
      refine Out.carries_iff.2 ⟨m, hmsg, ?_⟩
      cases m with
      | speedVote sv =>
        obtain ⟨hP, hprop⟩ := Bool.and_eq_true_iff.1 hP
        exact decide_eq_true (Prod.ext (of_decide_eq_true hP).1 (of_decide_eq_true hprop))
      | _ => cases hP
  have hall := eq_live hbare (fun a ha => by
      obtain ⟨m, hmem, rfl⟩ := List.mem_map.1 (List.mem_toFinset.1 ha)
      obtain ⟨hrec, hP⟩ := List.mem_filter.1 hmem
      exact (live_of_certified hw hm (hcert m hrec hP)).1) (hnums.trans (countP_le_card honce))
  obtain ⟨m, hmem, rfl⟩ := List.mem_map.1 (List.mem_toFinset.1 (hall ▸ hp))
  obtain ⟨hrec, hP⟩ := List.mem_filter.1 hmem
  exact hcert m hrec hP

/-- It has proposed both blocks of the view itself, -/
theorem second_of_led {i : NodeID} (hi : i ∈ E.live) {view : ℤ}
    (hled : (w.host i).st.eletor.leaders view ≠ none) : (view, HEIGHT_2) ∈ proposalKeys (w.host i).outs :=
  (live_of_certified hw (Env.mem_live.1 hi).1 (certified_of_led hE hw hbare hi hled hi)).2.1

/-- and it has voted for both blocks of all. -/
theorem voted_of_led {i : NodeID} (hi : i ∈ E.live) {view : ℤ}
    (hled : (w.host i).st.eletor.leaders view ≠ none) {p : NodeID} (hp : p ∈ E.live) {height : ℕ}
    (hh : height ≤ HEIGHT_2) :
    ∃ o ∈ (w.host i).outs, o.carries (Msg.isVote (view, p) height) = true := by
  have hm := (Env.mem_live.1 hi).1
  rcases height_cases hh with rfl | rfl
  · -- its height-2 block refers to the height-1 blocks of a quorum
    obtain ⟨o, ho, p', hmsg, he⟩ := exists_of_mem_proposalKeys (second_of_led hE hw hbare hi hled)
    obtain ⟨hv, hh⟩ := Prod.mk.inj he
    rcases (proposal (hw.local i) ho hmsg).references with ⟨-, h1, -⟩ | ⟨hlen, hg⟩
    · rw [hh] at h1
      cases h1
    · have hlayer : layerBefore p'.view p'.height = (view, HEIGHT_1) := by
        rw [hv, hh]
        rfl
      rw [hlayer] at hg
      have hnodup : (p'.b.references.map BlockQC.proposer).Nodup :=
        hg.sorted.imp fun hab => ne_of_lt hab
      have hall := eq_live hbare (S := (p'.b.references.map BlockQC.proposer).toFinset) (fun a ha => by
          obtain ⟨q, hq, rfl⟩ := List.mem_map.1 (List.mem_toFinset.1 ha)
          obtain ⟨-, b, hb⟩ := exists_backed hw hm hg hq
          exact live_of_proposed hw hb.host hb.proposed)
        (by rwa [List.toFinset_card_of_nodup hnodup, List.length_map])
      obtain ⟨q, hq, rfl⟩ := List.mem_map.1 (List.mem_toFinset.1 (hall ▸ hp))
      obtain ⟨h₀, hl₀, hpre, hq₀⟩ := hg.held q hq
      have hnames := runs.names hl₀ hq₀
      have hvote := voted_of_sound hw hbare
        (runs.blockQcs_sound (orderly hw) hw hm hl₀ hpre hq₀) hi
      rwa [hnames.view_eq, hnames.height_eq] at hvote
  · obtain ⟨-, -, q, hsound, hkey, hheight⟩ :=
      live_of_certified hw hm (certified_of_led hE hw hbare hi hled hp)
    have hvote := voted_of_sound hw hbare hsound hi
    rwa [hkey, hheight] at hvote

/-- **A block of a node that runs is found** where the leader of its view is known. -/
theorem found_of_led {i : NodeID} (hi : i ∈ E.live) {view : ℤ}
    (hled : (w.host i).st.eletor.leaders view ≠ none) {p : NodeID} (hp : p ∈ E.live) {height : ℕ}
    (hh : height ≤ HEIGHT_2) :
    (getBlock (w.host i).st.store (((w.host i).st.spbInstances (view, p)).blockHash height)).isSome =
      true := by
  have hm := (Env.mem_live.1 hi).1
  have hz := recorded_of_voted (runs.pool (hw.local i)) ((orderly hw).proper_of_received hw hm)
    (fun p _ => hE.nonzero p.b) (voted_of_led hE hw hbare hi hled hp hh)
  obtain ⟨b, hb, -⟩ := (conducts E).resolves (hw.local i) hh hz
  rw [hb]
  rfl

theorem certificates_of_led {i : NodeID} (hi : i ∈ E.live) {view : ℤ}
    (hled : (w.host i).st.eletor.leaders view ≠ none) :
    E.hightThreshold ≤ layerCerts E (w.host i).st (view, HEIGHT_2) 0 := by
  rw [← hbare, ← Finset.length_toList]
  refine length_le_layerCerts (Finset.nodup_toList _) fun p hp => ?_
  have hp := Finset.mem_toList.1 hp
  exact ⟨(Env.mem_live.1 hp).1, certified_of_led hE hw hbare hi hled hp⟩

/-- **The coin of the view that a node is in finds what it needs.** -/
theorem ripe {i : NodeID} (hi : i ∈ E.live) (x : Input (Msg D) Act) :
    Ripe E (w.host i).st.view i (w.host i) x := by
  have hl := hw.local i
  constructor
  · unfold Stocked
    split
    · next leader view height hpc =>
      rintro rfl
      have hled := led_of_busy hl (hpc ▸ rfl : Turns.busy (w.host i).st.pc = some (w.host i).st.view)
      have hn := noted hl hpc
      exact found_of_led hE hw hbare hi hled (live_of_noted hw (Env.mem_live.1 hi).1 hn) hn.1
    · next leader view hpc =>
      rintro rfl
      have hled := led_of_busy hl (hpc ▸ rfl : Turns.busy (w.host i).st.pc = some (w.host i).st.view)
      exact certificates_of_led hE hw hbare hi hled
    · trivial
  · unfold InView
    split
    · exact fun _ => rfl
    · trivial

/-- A node does not know the leader of a view that it is about to enter. -/
theorem leaders_of_first {i : NodeID} (hi : i ∈ E.live) (hheight : (w.host i).st.height = HEIGHT_1) :
    (w.host i).st.eletor.leaders (w.host i).st.view = none := by
  by_contra hled
  have hk := second_of_led hE hw hbare hi hled
  rcases (ordered (hw.local i)).last _ hk with he | hbefore
  · rw [hheight] at he
    cases congrArg Prod.snd he
  · unfold Before at hbefore
    dsimp only at hbefore
    rw [hheight] at hbefore
    simp [HEIGHT_1, HEIGHT_2] at hbefore

end Bare

/-- The view of a node changes when it proposes the first block of the next one. -/
theorem view_of_move {x : Input (Msg D) Act} {c' : BigNode D} {os : List (NodeOut D)} (ho : Ordered h)
    (hm : Move E self h.st x c' os) : c'.view = h.st.view ∨
      (c'.view = h.st.view + 1 ∧ c'.height = HEIGHT_1 ∧
        ∃ i refs, h.st.pc = .gather c'.view HEIGHT_1 i refs) := by
  cases hm with
  | aside hs _ => exact Or.inl hs.view
  | weak hs => exact Or.inl hs.view
  | process hs => cases hs <;> exact Or.inl rfl
  | leave _ => exact Or.inl (by simp)
  | advance _ _ _ _ hs => exact Or.inl (by simp [hs.view])
  | propose _ hpc _ _ =>
    rcases (ho.next _ _ _ _ hpc).1 with ⟨hv, hh⟩ | ⟨hv, -⟩
    · exact Or.inr ⟨hv, hh, _, _, hh ▸ hpc⟩
    · exact Or.inl hv
  | _ => exact Or.inl rfl

/-- **No node misses the coin of its view.** -/
theorem onTime (hE : E.Honest) (hbare : E.live.card = E.hightThreshold) {w : NodeWorld D (BigJob D)}
    (hw : (machine E).Reach Machine.anyInput w) {i : NodeID} (hi : i ∈ E.live) :
    OnTime E (w.host i).st.view (w.host i).st := by
  induction hw with
  | refl => exact Or.inr (Or.inl rfl)
  | @tail w w' hw hs ih =>
    rcases hs.host i with he | ⟨x, r, -, hr, he⟩
    · rw [he]
      exact ih
    · obtain ⟨c', os, rfl, hm⟩ := move_of_input hr
      have hst : (w'.host i).st = c' := by rw [← he]
      have ho := ordered (Machine.Reach.local hw i)
      have hw' : (machine E).Reach Machine.anyInput w' := hw.tail hs
      rcases view_of_move ho hm with hv | ⟨-, hh, -⟩
      · rw [hst, hv]
        exact onTime_move ho (ripe hE hw hbare hi x) hm ih
      · exact Or.inr (Or.inl (leaders_of_first hE hw' hbare hi (hst ▸ hh)))

/-- **A bare quorum does not stop**: some node of it can take a step, whatever has happened. -/
theorem never_stops (hE : E.Honest) (hbare : E.live.card = E.hightThreshold)
    {w : NodeWorld D (BigJob D)} (hw : (machine E).Reach Machine.anyInput w) :
    ∃ i ∈ E.live, CanMove (machine E) Toils w i := by
  by_contra hno
  have hrest : ∀ i ∈ E.live, Silent w i := fun i hi =>
    silent_of_stuck hE hw hi fun h => hno ⟨i, hi, h⟩
  obtain ⟨view, hmissed⟩ := missed_of_silent hE hw hbare.ge hrest
  -- somebody is still in the view, or in an earlier one
  obtain ⟨i, hi, hle⟩ : ∃ i ∈ E.live, (w.host i).st.view ≤ view := by
    by_contra hall
    have hleft := hmissed.left
    rw [Finset.filter_true_of_mem fun i hi => not_le.1 fun hle => hall ⟨i, hi, hle⟩] at hleft
    omega
  rcases onTime hE hbare hw hi with hlt | hnone | hleaving
  · exact lt_irrefl _ hlt
  · exact hmissed.led i hi hle hnone
  · rw [Leaving, (hrest i hi).idle] at hleaving
    exact hleaving

end DAGBigCore

end S2Pac
