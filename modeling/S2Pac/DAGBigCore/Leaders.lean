import S2Pac.DAGBigCore.Liveness

/-!
# The leaders of a bare quorum

When exactly a quorum runs, a node that has tossed the coin of a view has voted for the height-2 blocks of
all nodes that run, and each of them refers to the height-1 blocks of all. So it has counted
`LowThreshold()` weak votes for the leader if the leader runs, `processCoin` commits, and no such leader is
passed over (`leaders_committed`).
-/

set_option linter.unusedSectionVars false

namespace S2Pac

open Lib BigSPB

variable {D : Type} [DecidableEq D]

namespace DAGBigCore

variable {E : Env D} {self : NodeID} {c : BigNode D}
  {G : Machine.Guard NodeID (BigNode D) (Msg D) Act (Event D)} {h : NodeHost D (BigJob D)}

/-! ## Weak votes -/

/-- **A node counts all weak votes that it accepts.** -/
theorem le_weakVotes (hl : (machine E).Local G self h)
    (hgood : ∀ m ∈ h.received, m.passes E true = true) (view : ℤ) (node : NodeID) :
    h.received.countP (endorses view node) ≤ h.st.weakVotes view node := by
  induction hl with
  | start => exact Nat.zero_le _
  | @recv h m s o _ hg hs ih =>
    have ih := ih fun m hm => hgood m (List.mem_append_left _ hm)
    have hstep : (machine E).LocalStep G self h ⟨s, h.received ++ [m], h.outs ++ o⟩ :=
      ⟨.recv m, _, hg, by rw [Machine.input, hs]; rfl, rfl⟩
    have hmono : h.st.weakVotes view node ≤ s.weakVotes view node := weakVotes_mono hstep view node
    dsimp only
    rw [List.countP_append, List.countP_singleton]
    cases m with
    | propose p =>
      have hp := hgood (.propose p) (List.mem_append_right _ (List.mem_singleton_self _))
      have hv : p.verify E = some true := Msg.passes_verify hp
      have hd : p.verifyDocG E = some true := by simpa [Msg.passes, Msg.verify, hv] using hp
      have hst : (handle E self h.st (.propose p)).1 = s := congrArg Prod.fst (handle_of_recv hs).2
      rw [handle, handleProposeMsg, Node.verified_true hv, Node.verified_true hd] at hst
      have hweak : s.weakVotes = weakVotesOf h.st.weakVotes p := by
        rw [← hst]
        rfl
      split
      · next he =>
        -- the proposal refers to the node
        obtain ⟨hh, hany⟩ : p.height = HEIGHT_2 ∧ p.b.references.any (ofNode view node) = true := by
          simpa only [endorses, Bool.and_eq_true, decide_eq_true_eq] using he
        have hpos : 0 < p.b.references.countP (ofNode view node) :=
          List.countP_pos_iff.2 (List.any_eq_true.1 hany)
        rw [hweak, weakVotesOf, if_pos hh, addWeakVotes_foldl]
        omega
      · omega
    | _ => exact ih.trans hmono
  | @act h a s o _ hg hs ih =>
    have hstep : (machine E).LocalStep G self h ⟨s, h.received, h.outs ++ o⟩ :=
      ⟨.act a, _, hg, by rw [Machine.input, hs]; rfl, rfl⟩
    exact (ih hgood).trans (weakVotes_mono hstep view node)

section Bare

variable {w : NodeWorld D (BigJob D)} (hE : E.Honest) (hw : (machine E).Reach Machine.anyInput w)
  (hbare : E.live.card = E.hightThreshold)
include hE hw hbare

/-- **Where the leader of a view is known, all nodes that run have weak votes enough.** -/
theorem weakVotes_of_led {i : NodeID} (hi : i ∈ E.live) {view : ℤ}
    (hled : (w.host i).st.eletor.leaders view ≠ none) {p : NodeID} (hp : p ∈ E.live) :
    E.lowThreshold ≤ getWeakVotes (w.host i).st view p := by
  have hm := (Env.mem_live.1 hi).1
  have hlow : E.lowThreshold ≤ E.live.card := by
    rw [hbare, E.lowThreshold_eq, E.hightThreshold_eq]
    omega
  refine hlow.trans (le_trans ?_ (le_weakVotes (hw.local i)
    (fun m hm' => (welcome hE hw hm m hm').1) view p))
  refine card_le_countP (f := Msg.author) fun j hj => ?_
  -- the height-2 block of `j` has come in, and it refers to the blocks of all
  obtain ⟨o, ho, hc⟩ := voted_of_led hE hw hbare hi hled hj le_rfl
  obtain ⟨m, hmsg, hP⟩ := Out.carries_iff.1 hc
  cases m with
  | vote v =>
    obtain ⟨q, hq, -, rfl⟩ := runs.voted (hw.local i) ho hmsg
    obtain ⟨hkey, hheight⟩ : (q.b.view, q.b.author) = (view, j) ∧ q.b.height = HEIGHT_2 :=
      of_decide_eq_true hP
    obtain ⟨hview, hauthor⟩ := Prod.mk.inj hkey
    have hb := (orderly hw).backed_of_received (E := E) hw hm hq
    have hqj : q.author = j := hb.author.symm.trans hauthor
    have hprop : Proposed w j q.b := hqj ▸ hb.proposed
    obtain ⟨c, hc, hlayer, q', hq', hc', hcv, -⟩ := referred_of_live hw hbare hj hprop
      (Or.inr (by rw [hheight]; decide)) hp
    have hauth {l : NodeID} (hl : Proposed w l c) : c.author = l := by
      obtain ⟨p', rfl, hp'⟩ := proposal_of_proposed hw hl
      exact hp'.author.2
    have hbefore : layerBefore q.b.view q.b.height = (view, HEIGHT_1) := by
      rw [hview, hheight]
      rfl
    rw [hbefore] at hlayer
    refine ⟨_, hq, ?_, hqj⟩
    simp only [endorses, Bool.and_eq_true, decide_eq_true_eq, List.any_eq_true]
    exact ⟨hb.height_eq.symm.trans hheight, q', hq', decide_eq_true
      ⟨hcv.symm.trans (Prod.mk.inj hlayer).1, (hauth hc').symm.trans (hauth hc)⟩⟩
  | _ => cases hP

end Bare

/-! ## The coins of the views that a node has left -/

/-- The runs without reports, which no node of the DAG variant sends. -/
def NoReports : Machine.Guard NodeID (BigNode D) (Msg D) Act (Event D) :=
  fun _ _ x => ∀ r, x ≠ .recv (.report r)

theorem noReports {w : NodeWorld D (BigJob D)} (hw : (machine E).Reach Machine.anyInput w) :
    (machine E).Reach NoReports w := by
  refine hw.guarded (fun w hw i m hnet r he => ?_) fun _ _ _ _ _ _ he => by cases he
  obtain ⟨j, -, o, ho, hmsg⟩ := hw.sender_inFlight hnet
  rw [Input.recv.inj he] at hmsg
  exact not_report (hw.local j) ho r (Out.msg_of_msgTo hmsg)

/-- A message leaves the main loop at its head, or in `processCoin`. -/
theorem recv_gather {m : Msg D} {r : BigMoved D} (hr : recv E self c m = some r)
    (hm : ∀ r', m ≠ .report r') (view : ℤ) (height i : ℕ) (refs : List (BlockQC D)) :
    r.1.pc ≠ .gather view height i refs := by
  obtain ⟨c', os⟩ := r
  obtain ⟨hready, hs⟩ := (branches E).recv _ _ _ _ hr
  have hne : c.pc ≠ .gather view height i refs := by
    rw [(Node.idle_of_ready hready).2]
    simp
  cases hs with
  | elected _ _ _ => simp
  | told hlean _ => cases hlean
  | enter _ _ _ => exact absurd rfl (hm _)
  | _ => exact hne

/-- The main loop asks for the references of a first block after a coin. -/
theorem act_gather {a : Act} {r : BigMoved D} (hr : act E self c a = some r) {view : ℤ} {i : ℕ}
    {refs : List (BlockQC D)} (hpc : r.1.pc = .gather view HEIGHT_1 i refs) :
    (∃ i refs, c.pc = .gather view HEIGHT_1 i refs) ∨ ∃ leader, c.pc = .report leader (view - 1) := by
  have same (h : r.1.pc = c.pc) : (∃ i refs, c.pc = .gather view HEIGHT_1 i refs) ∨
      ∃ leader, c.pc = .report leader (view - 1) := Or.inl ⟨i, refs, h ▸ hpc⟩
  obtain ⟨c', os⟩ := r
  cases acting hr with
  | task _ _ _ hwork => exact same hwork.pc
  | coin hc => cases hc <;> cases hpc
  | report hdag _ => exact absurd rfl hdag
  | @leave leader view' _ hreport =>
    dsimp only [Node.entry] at hpc
    split at hpc
    · cases hpc
      exact Or.inr ⟨leader, by rw [hreport, add_sub_cancel_right]⟩
    · cases hpc
  | ask _ hgather _ =>
    cases hpc
    exact Or.inl ⟨_, _, hgather⟩
  | propose _ _ _ _ | few _ _ _ _ => cases hpc
  | callback _ _ _ =>
    dsimp only [Node.entry] at hpc
    split at hpc <;> cases hpc
  | _ => exact same rfl

theorem leaders_of_move {x : Input (Msg D) Act} {c' : BigNode D} {os : List (NodeOut D)}
    (hm : Move E self c x c' os) {view : ℤ} (hled : c.eletor.leaders view ≠ none) :
    c'.eletor.leaders view ≠ none := by
  cases hm with
  | aside hs _ => rwa [hs.eletor]
  | weak hs => rwa [hs.eletor]
  | shares hadd hres => rwa [leaders_of_shares hadd hres]
  | @elected e _ _ _ _ hadd hne =>
    cases Elector.adds_of_add hadd with
    | kept _ => exact absurd rfl hne
    | elected _ _ _ _ =>
      dsimp only
      by_cases hv : view = e.view
      · rw [hv, Function.update_self]
        exact Option.some_ne_none _
      · rwa [Function.update_of_ne hv]
  | process hs => cases hs <;> exact hled
  | leave _ => simpa using hled
  | advance _ _ _ _ hs => simpa [hs.eletor] using hled
  | _ => exact hled

/-- **A node knows the leaders of the views that it has left**, and of the one that it is leaving. -/
theorem led_of_left (hl : (machine E).Local NoReports self h) :
    (∀ view, 0 ≤ view → view < h.st.view → h.st.eletor.leaders view ≠ none) ∧
      ∀ view i refs, h.st.pc = .gather view HEIGHT_1 i refs →
        h.st.eletor.leaders (view - 1) ≠ none := by
  refine induction (P := fun h => (∀ view, 0 ≤ view → view < h.st.view →
    h.st.eletor.leaders view ≠ none) ∧ ∀ view i refs, h.st.pc = .gather view HEIGHT_1 i refs →
      h.st.eletor.leaders (view - 1) ≠ none) ⟨fun view h0 hlt => absurd h0 (not_le.2 hlt), ?_⟩ ?_ hl
  · intro view i refs hpc
    cases hpc
  · rintro h x c' os hl ⟨hleft, hleaving⟩ hg hr hm
    refine ⟨fun view h0 hlt => leaders_of_move hm ?_, fun view i refs hpc => leaders_of_move hm ?_⟩
    · rcases view_of_move (ordered hl) hm with hv | ⟨hv, -, i, refs, hpc⟩
      · exact hleft view h0 (hv ▸ hlt)
      · have hlt : view < c'.view := hlt
        by_cases he : view < h.st.view
        · exact hleft view h0 he
        · have hlast := hleaving _ i refs hpc
          rwa [show c'.view - 1 = view by omega] at hlast
    · cases x with
      | recv m =>
        obtain ⟨r, hrecv, he⟩ := Option.map_eq_some_iff.1 hr
        have hst : r.1 = c' := congrArg (fun p => p.1.st) he
        exact absurd (hst ▸ hpc) (recv_gather hrecv (fun r' hm => hg r' (hm ▸ rfl)) _ _ _ _)
      | act a =>
        obtain ⟨r, hact, he⟩ := Option.map_eq_some_iff.1 hr
        have hst : r.1 = c' := congrArg (fun p => p.1.st) he
        rcases act_gather hact (hst ▸ hpc) with ⟨i, refs, hold⟩ | ⟨leader, hreport⟩
        · exact hleaving view i refs hold
        · exact led_of_busy hl (hreport ▸ rfl)

section Bare

variable (hE : E.Honest) (hbare : E.live.card = E.hightThreshold) {w : NodeWorld D (BigJob D)}
  (hw : (machine E).Reach Machine.anyInput w)
include hE hbare hw

/-- **A node is in the view whose coin it has tossed** while it is in `processCoin`. -/
theorem view_of_busy {i : NodeID} (hi : i ∈ E.live) {view : ℤ}
    (hb : Turns.busy (w.host i).st.pc = some view) : (w.host i).st.view = view := by
  induction hw with
  | refl => cases hb
  | @tail w w' hw hs ih =>
    rcases hs.host i with he | ⟨x, r, -, hr, he⟩
    · rw [he] at hb ⊢
      exact ih hb
    · have hw' : (machine E).Reach Machine.anyInput w' := hw.tail hs
      obtain ⟨c', os, rfl, hm⟩ := move_of_input hr
      have hst : (w'.host i).st = c' := by rw [← he]
      have hled := led_of_busy (hw'.local i) hb
      rw [hst] at hb hled ⊢
      have old (hv : c'.view = (w.host i).st.view) (hold : Turns.busy (w.host i).st.pc = some view) :
          c'.view = view := hv.trans (ih hold)
      cases hm with
      | aside hs _ => exact old hs.view (hs.pc ▸ hb)
      | weak hs => exact old hs.view (hs.pc ▸ hb)
      | @elected e el leader _ _ hadd hne =>
        obtain rfl : e.view = view := Option.some.inj hb
        have hm := (Env.mem_live.1 hi).1
        have hkey := second_of_led hE hw' hbare hi (hst ▸ hled)
        obtain ⟨h0, hle, -⟩ := bounds_of_key hw' hkey
        rw [hst] at hle
        refine le_antisymm (not_lt.1 fun hlt => ?_) hle
        -- the leader of a view that was left is known, and so it is not elected now
        have hknown := (led_of_left ((noReports hw).local i)).1 e.view h0 hlt
        have hholds := ((candid hE hw).counted i hm).elects e.view
        cases Elector.adds_of_add hadd with
        | kept _ => exact hne rfl
        | elected _ _ hlen _ =>
          rw [hholds.elects] at hlen
          rw [hholds.leaders, if_neg (by omega)] at hknown
          exact hknown rfl
      | process hs => exact old (by cases hs <;> rfl) (Turns.busy_of_coinStep hs hb)
      | leave _ => exact absurd hb busy_advanceView
      | advance _ _ _ _ _ => exact absurd hb busy_advanceView
      | ask _ _ => cases hb
      | propose _ _ _ _ => cases hb
      | few _ _ _ => cases hb
      | _ => exact old rfl hb

end Bare

/-! ## No leader that runs is passed over -/

/-- `processCoin(leader, view)` is on its way to `Commit`. -/
def Deciding (leader : NodeID) (view : ℤ) : Pc D → Prop
  | .coin leader' view' => leader' = leader ∧ view' = view
  | .decide leader' view' => leader' = leader ∧ view' = view
  | .fetch leader' view' _ => leader' = leader ∧ view' = view
  | .commit leader' view' _ _ => leader' = leader ∧ view' = view
  | _ => False

theorem Deciding.busy {leader : NodeID} {view : ℤ} {pc : Pc D} (h : Deciding leader view pc) :
    Turns.busy pc = some view := by
  cases pc with
  | coin _ _ => exact congrArg some h.2
  | decide _ _ => exact congrArg some h.2
  | fetch _ _ _ => exact congrArg some h.2
  | commit _ _ _ _ => exact congrArg some h.2
  | _ => exact h.elim

/-- The node has passed a block of the leader of the view to `Commit`. -/
def Committed (h : NodeHost D (BigJob D)) (leader : NodeID) (view : ℤ) : Prop :=
  ∃ height b, Out.event (.handed leader view height b) ∈ h.outs

/-- A step of `processCoin` for a leader that has weak votes enough and whose blocks are found. -/
theorem deciding_coinStep {second : NodeID → ℤ → Bool} {c' : BigNode D} {os : List (NodeOut D)}
    (hs : CoinStep second c c' os) {leader : NodeID} {view : ℤ} (ht : Deciding leader view c.pc)
    (hweak : second leader view = true)
    (hfound : ∀ height, c.pc = .fetch leader view height →
      (getBlock c.store ((c.spbInstances (view, leader)).blockHash height)).isSome = true) :
    Deciding leader view c'.pc ∨ ∃ height b, Out.event (.handed leader view height b) ∈ os := by
  cases hs with
  | speed hpc _ | slow hpc | second hpc _ | found hpc _ =>
    rw [hpc] at ht
    exact Or.inl ht
  | undecided hpc hno =>
    rw [hpc] at ht
    obtain ⟨rfl, rfl⟩ := ht
    rw [hweak] at hno
    cases hno
  | missing hpc hnone =>
    rw [hpc] at ht
    obtain ⟨rfl, rfl⟩ := ht
    have hsome := hfound _ hpc
    rw [hnone] at hsome
    cases hsome
  | handed hpc _ =>
    rw [hpc] at ht
    obtain ⟨rfl, rfl⟩ := ht
    exact Or.inr ⟨_, _, List.mem_singleton_self _⟩

/-- **A leader that runs is committed**, or `processCoin` is about to. -/
theorem committed_or_deciding (hE : E.Honest) (hbare : E.live.card = E.hightThreshold)
    {w : NodeWorld D (BigJob D)} (hw : (machine E).Reach Machine.anyInput w) {i : NodeID}
    (hi : i ∈ E.live) {leader : NodeID} (hlive : leader ∈ E.live) {view : ℤ}
    (hled : (w.host i).st.eletor.leaders view = some leader) :
    Deciding leader view (w.host i).st.pc ∨ Committed (w.host i) leader view := by
  induction hw with
  | refl => cases hled
  | @tail w w' hw hs ih =>
    rcases hs.host i with he | ⟨x, r, -, hr, he⟩
    · rw [he] at hled ⊢
      exact ih hled
    · obtain ⟨c', os, rfl, hm⟩ := move_of_input hr
      rw [← he] at hled ⊢
      -- what was committed stays so, and what was on its way goes on
      have old (hel : (w.host i).st.eletor.leaders view = some leader)
          (hgo : Deciding leader view (w.host i).st.pc → Deciding leader view c'.pc ∨
            ∃ height b, Out.event (.handed leader view height b) ∈ os) :
          Deciding leader view c'.pc ∨
            Committed ⟨c', (w.host i).received ++ x.heard, (w.host i).outs ++ os⟩ leader view := by
        rcases ih hel with ht | ⟨height, b, hb⟩
        · exact (hgo ht).imp_right fun ⟨height, b, hb⟩ => ⟨height, b, List.mem_append_right _ hb⟩
        · exact Or.inr ⟨height, b, List.mem_append_left _ hb⟩
      have out {pc : Pc D} (hpc : (w.host i).st.pc = pc) (hno : ¬ Deciding leader view pc) :
          Deciding leader view (w.host i).st.pc → Deciding leader view c'.pc ∨
            ∃ height b, Out.event (.handed leader view height b) ∈ os :=
        fun ht => absurd (hpc ▸ ht) hno
      cases hm with
      | aside hs _ => exact old (hs.eletor ▸ hled) fun ht => Or.inl (hs.pc ▸ ht)
      | weak hs => exact old (hs.eletor ▸ hled) fun ht => Or.inl (hs.pc ▸ ht)
      | shares hadd hres =>
        dsimp only at hled
        rw [leaders_of_shares hadd hres] at hled
        exact old hled Or.inl
      | @elected e el leader' _ hidle hadd hne =>
        cases Elector.adds_of_add hadd with
        | kept _ => exact absurd rfl hne
        | elected _ _ _ _ =>
          dsimp only at hled
          by_cases hv : view = e.view
          · rw [hv, Function.update_self] at hled
            exact Or.inl ⟨Option.some.inj hled, hv.symm⟩
          · rw [Function.update_of_ne hv] at hled
            exact old hled (out hidle id)
      | process hs =>
        have hel : c'.eletor = (w.host i).st.eletor := by cases hs <;> rfl
        have hled : (w.host i).st.eletor.leaders view = some leader := hel ▸ hled
        have hknown : (w.host i).st.eletor.leaders view ≠ none := hled ▸ Option.some_ne_none leader
        have hweak := weakVotes_of_led hE hw hbare hi hknown hlive
        refine old hled fun ht => deciding_coinStep hs ht (decide_eq_true hweak) fun height hpc => ?_
        exact found_of_led hE hw hbare hi hknown hlive (noted (Machine.Reach.local hw i) hpc).1
      | leave hpc => exact old (by simpa using hled) (out hpc id)
      | advance _ _ _ hpc hs => exact old (by simpa [hs.eletor] using hled) (out hpc id)
      | ask hpc _ => exact old hled (out hpc id)
      | propose _ hpc _ _ => exact old hled (out hpc id)
      | few hpc _ _ => exact old hled (out hpc id)
      | boot _ _ => exact old hled Or.inl

end DAGBigCore

open DAGBigCore in
/-- **No leader that runs is passed over.** Exactly `f` of `3 * f + 1` nodes are silent from the start and
the others follow the code. A node that has left a view knows the leader of the view, and if the leader is
not silent it has passed a block of the leader to its commitor. -/
theorem leaders_committed {E : Env D} (hE : E.Honest) (hn : E.n = 3 * E.tolerated + 1)
    (hf : E.faults = E.tolerated) {w : NodeWorld D (BigJob D)}
    (hw : (DAGBigCore.machine E).Reach Machine.anyInput w) {i : NodeID} (hi : i ∈ E.live) {view : ℤ}
    (h0 : 0 ≤ view) (hlt : view < (w.host i).st.view) :
    ∃ leader, (w.host i).st.eletor.leaders view = some leader ∧
      (leader ∈ E.live → ∃ height b, Out.event (.handed leader view height b) ∈ (w.host i).outs) := by
  have hbare := Env.card_live hn hf
  obtain ⟨leader, hled⟩ := Option.ne_none_iff_exists'.1
    ((led_of_left ((noReports hw).local i)).1 view h0 hlt)
  refine ⟨leader, hled, fun hlive => ?_⟩
  rcases committed_or_deciding hE hbare hw hi hlive hled with ht | hc
  · exact absurd (view_of_busy hE hbare hw hi ht.busy) (ne_of_gt hlt)
  · exact hc

/-! ## A run of three nodes -/

namespace DagRun

open BigRun

/-- Nodes 1, 2 and 3 go through view 0, and node 1 gets the shares of its coin. -/
def bare : List (NodeOrder ℕ) :=
  bootFour ++ [1, 2, 3].flatMap (propose 0 HEIGHT_1 [1, 2, 3]) ++
  [1, 2, 3].flatMap (votes 0 HEIGHT_1 [1, 2, 3]) ++ [1, 2, 3].flatMap proposeNext ++
  [1, 2, 3].flatMap (propose 0 HEIGHT_2 [1, 2, 3]) ++
  [1, 2, 3].flatMap (votes 0 HEIGHT_2 [1, 2, 3]) ++
  ([1, 2, 3].flatMap fun i => ([1, 2, 3].map fun p =>
    .deliver i fun m => Msg.isSpeedVote (0, p) m && decide (m.author = i)) ++ again i (.task 0) 9) ++
  DagRun.elect 0 1

/-- The world after `bare`. -/
def bareWorld : NodeWorld ℕ (BigJob ℕ) :=
  (DAGBigCore.machine bareEnv).play Machine.anyInput (DAGBigCore.machine bareEnv).world bare

end DagRun

theorem leaders_committed_bare : 1 ∈ DagRun.bareEnv.live ∧
    0 < (DagRun.bareWorld.host 1).st.view ∧
      (DagRun.bareWorld.host 1).st.eletor.leaders 0 = some 1 ∧
      ∃ height b, Out.event (.handed 1 0 height b) ∈ (DagRun.bareWorld.host 1).outs := by
  have hE : DagRun.bareEnv.Honest := Env.plain_honest 4 _ 1
  have hw : (DAGBigCore.machine DagRun.bareEnv).Reach Machine.anyInput DagRun.bareWorld :=
    Machine.play_sound _ DagRun.bare
  have hlive : 1 ∈ DagRun.bareEnv.live := by decide
  have hspec : 0 < (DagRun.bareWorld.host 1).st.view ∧
      (DagRun.bareWorld.host 1).st.eletor.leaders 0 = some 1 := by
    decide +kernel
  obtain ⟨leader, hled, hcommitted⟩ :=
    leaders_committed hE (by decide) (by decide) hw hlive le_rfl hspec.1
  obtain rfl : 1 = leader := Option.some.inj (hspec.2.symm.trans hled)
  exact ⟨hlive, hspec.1, hspec.2, hcommitted hlive⟩

end S2Pac
