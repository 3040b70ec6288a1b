import Mathlib.Data.List.Perm.Subperm
import S2Pac.BigSPB.Course
import S2Pac.DAGBigCore.Advance
import S2Pac.DAGBigCore.References

/-!
# How a node of the DAG variant is woken for its height-2 block

Every height-1 certificate sends a callback, and the main loop tries to go on to height 2 when it takes
one off the channel. A callback that comes while the node is in an earlier view, or before there are
enough certificates, is used up. The one that matters comes all the same: the certificate of the node's
own instance is made after the node has entered the view, and of that certificate and the one that
completes the threshold the later one sends a callback that finds all there is to find (`no_lost_wakeup`).
-/

set_option linter.unusedSectionVars false

namespace S2Pac

open Lib BigSPB

variable {D : Type} [DecidableEq D]

namespace DAGBigCore

variable {E : Env D} {self : NodeID}

/-! ## Callbacks -/

/-- What a step that takes no callback does to the callbacks: a new height-1 certificate is about to
send one, and one that is about to be sent or has been sent is not lost. -/
structure Rouses (c c' : BigNode D) : Prop where
  fresh : ∀ k, (c'.spbInstances k).blockQcs HEIGHT_1 ≠ none →
    (c.spbInstances k).blockQcs HEIGHT_1 = none → (k, .callBack) ∈ c'.tasks
  sending : ∀ k, (k, .callBack) ∈ c.tasks → (k, .callBack) ∈ c'.tasks ∨ k ∈ c'.callBackSpb
  queued : ∀ k ∈ c.callBackSpb, k ∈ c'.callBackSpb

theorem Rouses.of_eq {c c' : BigNode D} (hspb : c'.spbInstances = c.spbInstances)
    (htasks : c.tasks ⊆ c'.tasks) (hqueue : c'.callBackSpb = c.callBackSpb) : Rouses c c' where
  fresh k hnew hold := by
    rw [hspb] at hnew
    exact absurd hold hnew
  sending k hk := Or.inl (htasks hk)
  queued k hk := by rwa [hqueue]

/-- A height-1 certificate is made where a callback is started. -/
theorem callBack_of_certify {k : Key} {s s' : SPB D} {j : BigJob D} {js : List (BigJob D)}
    {os : List (NodeOut D)} (h : JobStep E self dagRules k s j s' js os)
    (hnew : s'.blockQcs HEIGHT_1 ≠ none) (hold : s.blockQcs HEIGHT_1 = none) : .callBack ∈ js := by
  obtain ⟨qc, hqc⟩ := Option.ne_none_iff_exists'.1 hnew
  cases h with
  | quorumFirst v hv => exact List.mem_singleton.2 rfl
  | quorumSecond v hv => simp [hv, hold] at hqc
  | quorumOther v h₁ h₂ => simp [Ne.symm h₁, hold] at hqc
  | _ => exact absurd hold hnew

theorem rouses_task {c c' : BigNode D} {i : ℕ} {k : Key} {j : BigJob D} {s : SPB D} {js : List (BigJob D)}
    {bad : Prop} {os : List (NodeOut D)} (hi : c.tasks[i]? = some (k, j))
    (hstep : JobStep E self dagRules k (c.spbInstances k) j s js os)
    (hwork : { c with tasks := c.tasks.eraseIdx i }.Worked k s js (calls k j) bad c' os) :
    Rouses c c' := by
  constructor
  · intro k' hnew hold
    rw [hwork.spb] at hnew
    by_cases hk : k' = k
    · subst hk
      rw [Function.update_self] at hnew
      rw [hwork.tasks]
      exact List.mem_append_right _ (List.mem_map.2 ⟨_, callBack_of_certify hstep hnew hold, rfl⟩)
    · rw [Function.update_of_ne hk] at hnew
      exact absurd hold hnew
  · intro k' hk'
    -- the callback is the task that runs, or another one
    rw [hwork.tasks, hwork.callBackSpb]
    by_cases he : (k', BigJob.callBack) = (k, j)
    · obtain ⟨rfl, rfl⟩ := Prod.mk.inj he
      exact Or.inr (List.mem_append_right _ (List.mem_singleton.2 rfl))
    · refine Or.inl (List.mem_append_left _ ?_)
      obtain ⟨n, hn⟩ := List.mem_iff_getElem?.1 hk'
      refine List.mem_eraseIdx_iff_getElem?.2 ⟨n, fun hni => he ?_, hn⟩
      subst hni
      exact Option.some.inj (hn.symm.trans hi)
  · intro k' hk'
    rw [hwork.callBackSpb]
    exact List.mem_append_left _ hk'

theorem rouses_handling {V : Variant} {P : Goroutines D (BigJob D)} {c c' : BigNode D} {m : Msg D}
    {os : List (NodeOut D)} (h : Handling E self V P c m c' os) : Rouses c c' := by
  cases h with
  | propose _ | vote _ | finVote _ _ | speedVote _ _ | counted _ _ =>
    exact Rouses.of_eq rfl (List.subset_append_left _ _) rfl
  | _ => exact Rouses.of_eq rfl (List.Subset.refl _) rfl

/-- Only an idle main loop takes a callback, the oldest one. -/
theorem rouses_acting {c c' : BigNode D} {a : Act} {os : List (NodeOut D)}
    (h : Acting E self .dag (goroutines E) c a c' os) :
    Rouses c c' ∨ ∃ k rest, c.pc = .idle ∧ c.callBackSpb = k :: rest ∧
      c' = advanceView { c with callBackSpb := rest } k.1 HEIGHT_2 := by
  cases h with
  | task hi _ hstep hwork => exact Or.inl (rouses_task hi hstep hwork)
  | coin hc => cases hc <;> exact Or.inl (Rouses.of_eq rfl (List.Subset.refl _) rfl)
  | callback _ hready hqueue =>
    refine Or.inr ⟨_, _, (Node.idle_of_ready hready).2, hqueue, ?_⟩
    rw [advanceView_entry]
    rfl
  | _ => exact Or.inl (Rouses.of_eq rfl (List.Subset.refl _) rfl)

/-- **A step takes a callback off the channel or loses none.** -/
theorem rouses_of_input {h : NodeHost D (BigJob D)} {x : Input (Msg D) Act} {c' : BigNode D}
    {l : List (Msg D)} {outs os : List (NodeOut D)}
    (hr : (machine E).input self h x = some (⟨c', l, outs⟩, os)) :
    Rouses h.st c' ∨ ∃ k rest, h.st.pc = .idle ∧ h.st.callBackSpb = k :: rest ∧
      c' = advanceView { h.st with callBackSpb := rest } k.1 HEIGHT_2 := by
  cases x with
  | recv m =>
    obtain ⟨⟨c, os⟩, hs, he⟩ := Option.map_eq_some_iff.1 hr
    cases he
    exact Or.inl (rouses_handling ((branches E).recv _ _ _ _ hs).2)
  | act a =>
    obtain ⟨⟨c, os⟩, hs, he⟩ := Option.map_eq_some_iff.1 hr
    cases he
    exact rouses_acting (acting hs)

/-! ## Being due, and being woken -/

/-- A callback of view `v` is in the channel or about to be sent, or the main loop has taken one and
finds enough certificates. -/
inductive Woken (E : Env D) (c : BigNode D) (v : ℤ) : Prop
  | queued {k : Key} : k ∈ c.callBackSpb → k.1 = v → Woken E c v
  | sending {k : Key} : (k, .callBack) ∈ c.tasks → k.1 = v → Woken E c v
  | gathering {i : ℕ} {refs : List (BlockQC D)} : c.pc = .gather v HEIGHT_2 i refs →
      E.hightThreshold ≤ refs.length + layerCerts E c (v, HEIGHT_1) i → Woken E c v

/-- Node `me` has what it needs to go on from height 1 of its view to height 2. -/
structure Due (E : Env D) (me : NodeID) (c : BigNode D) : Prop where
  height : c.height = HEIGHT_1
  own : (c.spbInstances (c.view, me)).blockQcs HEIGHT_1 ≠ none
  enough : E.hightThreshold ≤ layerCerts E c (c.view, HEIGHT_1) 0

theorem exists_fresh {c c' : BigNode D} (hview : c'.view = c.view) (hheight : c'.height = c.height)
    (hd : Due E self c') (hn : ¬ Due E self c) :
    ∃ j, (c'.spbInstances (c.view, j)).blockQcs HEIGHT_1 ≠ none ∧
      (c.spbInstances (c.view, j)).blockQcs HEIGHT_1 = none := by
  by_contra hno
  push Not at hno
  refine hn ⟨hheight ▸ hd.height, hno _ (hview ▸ hd.own), ?_⟩
  have hmono : layerCerts E c' (c.view, HEIGHT_1) 0 ≤ layerCerts E c (c.view, HEIGHT_1) 0 :=
    layerCerts_mono _ hno 0
  exact (hview ▸ hd.enough).trans hmono

theorem woken_of_rouses {c c' : BigNode D} (hr : Rouses c c') (hview : c'.view = c.view)
    (hheight : c'.height = c.height)
    (hpc : ∀ i refs, c.pc = .gather c.view HEIGHT_2 i refs →
      E.hightThreshold ≤ refs.length + layerCerts E c (c.view, HEIGHT_1) i →
      Woken E c' c.view)
    (hw : Due E self c → Woken E c c.view) (hd : Due E self c') : Woken E c' c'.view := by
  rw [hview]
  by_cases hdue : Due E self c
  · cases hw hdue with
    | queued hk hv => exact Woken.queued (hr.queued _ hk) hv
    | sending hk hv =>
      rcases hr.sending _ hk with hk | hk
      · exact Woken.sending hk hv
      · exact Woken.queued hk hv
    | gathering hg hle => exact hpc _ _ hg hle
  · obtain ⟨j, hnew, hold⟩ := exists_fresh hview hheight hd hdue
    exact Woken.sending (hr.fresh _ hnew hold) rfl

theorem woken_of_callback {c : BigNode D} {k : Key} {rest : List Key}
    (hpc : c.pc = .idle) (hqueue : c.callBackSpb = k :: rest)
    (hw : Due E self c → Woken E c c.view)
    (hd : Due E self (advanceView { c with callBackSpb := rest } k.1 HEIGHT_2)) :
    Woken E (advanceView { c with callBackSpb := rest } k.1 HEIGHT_2) c.view := by
  have hdue : Due E self c := ⟨by simpa using hd.height, by simpa using hd.own, by
    simpa [layerCerts] using hd.enough⟩
  by_cases hk : k.1 = c.view
  · -- the node is at height 1 of the view, so that `advanceView` goes on to `getReference`
    have hnext : isNext { c with callBackSpb := rest } k.1 HEIGHT_2 ∧ HEIGHT_2 ≤ HEIGHT_2 :=
      ⟨Or.inr ⟨hk, by rw [show c.height = HEIGHT_1 from hdue.height]⟩, le_rfl⟩
    rw [advanceView, if_pos hnext, hk]
    refine Woken.gathering (i := 0) rfl ?_
    simpa [layerCerts] using hdue.enough
  · cases hw hdue with
    | queued hk' hv =>
      rw [hqueue] at hk'
      rcases List.mem_cons.1 hk' with rfl | hk'
      · exact absurd hv hk
      · exact Woken.queued (by simpa using hk') hv
    | sending hk' hv => exact Woken.sending (by simpa using hk') hv
    | gathering hg _ => cases hpc.symm.trans hg

/-! ## Entering a view -/

/-- Nobody else signs the proposals of a node: one in its name that passes `Verify` is for a view and a
height at which it has proposed. -/
def OwnProposals (E : Env D) : Machine.Guard NodeID (BigNode D) (Msg D) Act (Event D) :=
  fun i h x =>
    match x with
    | .recv (.propose p) => p.author = i → p.verify E = some true →
      (p.view, p.height) ∈ proposalKeys h.outs
    | _ => True

instance (i : NodeID) (h : NodeHost D (BigJob D)) (x : Input (Msg D) Act) :
    Decidable (OwnProposals E i h x) :=
  match x with
  | .recv (.propose _) => by unfold OwnProposals; infer_instance
  | .recv (.vote _) | .recv (.finVote _) | .recv (.speedVote _) | .recv (.elect _)
  | .recv (.randomCoin _) | .recv (.report _) | .act _ => instDecidableTrue

section Local

variable {G : Machine.Guard NodeID (BigNode D) (Msg D) Act (Event D)} {h : NodeHost D (BigJob D)}

theorem own_proposed (hl : (machine E).Local (OwnProposals E) self h) {p : ProposeMsg D}
    (hp : Msg.propose p ∈ h.received.filter (Msg.passes E true)) (ha : p.author = self) :
    (p.view, p.height) ∈ proposalKeys h.outs := by
  induction hl with
  | start => exact absurd hp List.not_mem_nil
  | recv _ hg _ ih =>
    rw [List.filter_append] at hp
    rw [proposalKeys_append]
    refine List.mem_append_left _ ?_
    rcases List.mem_append.1 hp with hp | hp
    · exact ih hp
    · obtain ⟨hm, hpass⟩ := List.mem_filter.1 hp
      rw [← List.mem_singleton.1 hm] at hg
      exact hg ha (Msg.passes_verify hpass)
  | act _ _ _ ih =>
    rw [proposalKeys_append]
    exact List.mem_append_left _ (ih hp)

theorem mem_sent (os : List (NodeOut D)) (p : ProposeMsg D) :
    (p.view, p.height) ∈ proposalKeys (os ++ [.bcast (.propose p)]) := by
  rw [proposalKeys_append]
  exact List.mem_append_right _ (List.mem_singleton.2 rfl)

theorem current_proposed (hl : (machine E).Local G self h) (hb : h.st.booted = true) :
    (h.st.view, h.st.height) ∈ proposalKeys h.outs := by
  revert hb
  refine induction (P := fun h => h.st.booted = true → (h.st.view, h.st.height) ∈
    proposalKeys h.outs) (fun hb => nomatch hb) ?_ hl
  intro h x c' os hl ih _ _ hm hb
  have hsame (hview : c'.view = h.st.view) (hheight : c'.height = h.st.height)
      (hbooted : c'.booted = h.st.booted) :
      (c'.view, c'.height) ∈ proposalKeys (h.outs ++ os) := by
    rw [hview, hheight, proposalKeys_append]
    exact List.mem_append_left _ (ih (hbooted ▸ hb))
  cases hm with
  | aside hs _ => exact hsame hs.view hs.height hs.booted
  | boot batch _ => exact mem_sent _ _
  | weak hs => exact hsame hs.view hs.height hs.booted
  | shares _ _ => exact hsame rfl rfl rfl
  | elected _ _ _ _ => exact hsame rfl rfl rfl
  | process hs => cases hs <;> exact hsame rfl rfl rfl
  | leave _ => exact hsame (by simp) (by simp) (by simp)
  | advance view height _ _ hs =>
    exact hsame (by simp [hs.view]) (by simp [hs.height]) (by simp [hs.booted])
  | ask _ _ => exact hsame rfl rfl rfl
  | propose batch _ _ _ =>
    exact mem_sent _ _
  | few _ _ _ => exact hsame rfl rfl rfl

/-- The certificate of the node's own height-1 block is made after the block was proposed. -/
theorem own_certificate (hl : (machine E).Local (OwnProposals E) self h)
    (hz : NoZeroVote E (h.received.filter (Msg.passes E true))) {view : ℤ} {height : ℕ}
    (hown : (h.st.spbInstances (view, self)).blockQcs height ≠ none) :
    (view, height) ∈ proposalKeys h.outs := by
  obtain ⟨q, hq⟩ := Option.ne_none_iff_exists'.1 hown
  obtain ⟨p, hp, hk, rfl, -⟩ := accepted hl hz hq
  obtain ⟨rfl, ha⟩ := Prod.mk.inj hk
  exact own_proposed hl hp ha.symm

theorem woken (hl : (machine E).Local (OwnProposals E) self h)
    (hz : NoZeroVote E (h.received.filter (Msg.passes E true))) :
    Due E self h.st → Woken E h.st h.st.view := by
  revert hz
  refine induction (P := fun h => NoZeroVote E (h.received.filter (Msg.passes E true)) →
    Due E self h.st → Woken E h.st h.st.view) (fun _ hd => absurd rfl hd.own) ?_ hl
  intro h x c' os hl ih _ hr hm hz' hd
  have hz : NoZeroVote E (h.received.filter (Msg.passes E true)) :=
    hz'.mono ((List.prefix_append _ _).filter _).subset
  have ih := ih hz
  rcases rouses_of_input hr with hrouses | ⟨k, rest, hpc, hqueue, he⟩
  · have hbusy (hpc : ∀ v i refs, h.st.pc ≠ .gather v HEIGHT_2 i refs)
        (hview : c'.view = h.st.view) (hheight : c'.height = h.st.height) :
        Woken E c' c'.view :=
      woken_of_rouses hrouses hview hheight (fun _ _ hg => absurd hg (hpc _ _ _)) ih hd
    cases hm with
    | aside hs _ =>
      refine woken_of_rouses hrouses hs.view hs.height (fun i refs hg hle => ?_) ih hd
      exact Woken.gathering (hs.pc.trans hg) (hle.trans (Nat.add_le_add_left
        (layerCerts_mono _ (fun _ => (hs.grows _).blockQcs _) i) _))
    | boot _ _ => exact woken_of_rouses hrouses rfl rfl (fun _ _ hg hle => .gathering hg hle) ih hd
    | weak hs =>
      refine woken_of_rouses hrouses hs.view hs.height (fun i refs hg hle => ?_) ih hd
      exact Woken.gathering (hs.pc.trans hg) (hle.trans (Nat.add_le_add_left
        (layerCerts_mono _ (fun _ => (hs.grows _).blockQcs _) i) _))
    | shares _ _ =>
      exact woken_of_rouses hrouses rfl rfl (fun _ _ hg hle => .gathering hg hle) ih hd
    | elected _ hpc _ _ => exact hbusy (by simp [hpc]) rfl rfl
    | process hs => cases hs <;> exact hbusy (by simp [*]) rfl rfl
    | leave hpc => exact hbusy (by simp [hpc]) (by simp) (by simp)
    | advance view height _ hpc hs =>
      exact hbusy (by simp [hpc]) (by simp [hs.view]) (by simp [hs.height])
    | @ask view height i refs hpc hi =>
      refine woken_of_rouses hrouses rfl rfl (fun i' refs' hg hle => ?_) ih hd
      obtain ⟨rfl, rfl, rfl, rfl⟩ := Pc.gather.inj (hpc.symm.trans hg)
      refine Woken.gathering rfl ?_
      rw [length_add_layerCerts _ _ hi] at hle
      exact hle
    | @propose view height i refs batch _ hpc _ _ =>
      -- the node enters the view, so that its own instance has no certificate yet
      have hlt := before_of_isNext ((ordered hl).next _ _ _ _ hpc).1
      have hheight : height = HEIGHT_1 := hd.height
      subst hheight
      rcases (ordered hl).last _ (own_certificate hl hz hd.own) with heq | hbefore
      · rw [← heq] at hlt
        exact absurd hlt (Before.irrefl _)
      · exact absurd (hbefore.trans hlt) (Before.irrefl _)
    | @few view height i refs hpc hi hlen =>
      refine woken_of_rouses hrouses rfl rfl (fun i' refs' hg hle => ?_) ih hd
      obtain ⟨-, -, rfl, rfl⟩ := Pc.gather.inj (hpc.symm.trans hg)
      rw [layerCerts_of_le _ _ hi] at hle
      omega
  · subst he
    rw [advanceView_view]
    exact woken_of_callback hpc hqueue ih hd

end Local

theorem length_le_layerCerts {c : BigNode D} {layer : ℤ × ℕ} {js : List NodeID} (hjs : js.Nodup)
    (hmem : ∀ j ∈ js, j ∈ E.members ∧ (c.spbInstances (layer.1, j)).blockQcs layer.2 ≠ none) :
    js.length ≤ layerCerts E c layer 0 := by
  have hsub : js ⊆ E.members.filter fun j =>
      ((c.spbInstances (layer.1, j)).blockQcs layer.2).isSome := fun j hj =>
    List.mem_filter.2 ⟨(hmem j hj).1, Option.isSome_iff_ne_none.2 (hmem j hj).2⟩
  refine (List.subperm_of_subset hjs hsub).length_le.trans (le_of_eq ?_)
  rw [← List.countP_eq_length_filter, Env.members, List.countP_map, layerCerts, Nat.sub_zero,
    ← List.range_eq_range']
  rfl

end DAGBigCore

theorem mem_members_of_passes {E : Env D} {docG : Bool} {p : ProposeMsg D}
    (h : Msg.passes E docG (.propose p) = true) : p.author ∈ E.members := by
  have hverify : E.checkSig p.author (p.hash E) p.signature = some true := Msg.passes_verify h
  unfold Env.checkSig at hverify
  split at hverify
  · assumption
  · cases hverify

open DAGBigCore in
/-- **No wake-up for height 2 is lost**: a node that has proposed its height-1 block of view `v`, whose
own instance of the view has its height-1 certificate and that holds `HightThreshold()` height-1
certificates of the view has gone on to height 2 or to a later view, unless a callback of the view is in
the channel, about to be sent or being handled. -/
theorem no_lost_wakeup {E : Env D} {self : NodeID} {h : NodeHost D (BigJob D)}
    (hl : (machine E).Local (OwnProposals E) self h)
    (hz : NoZeroVote E (h.received.filter (Msg.passes E true))) {v : ℤ}
    (hfirst : (v, HEIGHT_1) ∈ proposalKeys h.outs)
    (hown : (h.st.spbInstances (v, self)).blockQcs HEIGHT_1 ≠ none) {js : List NodeID}
    (hjs : js.Nodup) (hmany : E.hightThreshold ≤ js.length)
    (hqcs : ∀ j ∈ js, (h.st.spbInstances (v, j)).blockQcs HEIGHT_1 ≠ none)
    (hqueue : ∀ k ∈ h.st.callBackSpb, k.1 ≠ v)
    (hsending : ∀ k, (k, BigJob.callBack) ∈ h.st.tasks → k.1 ≠ v)
    (hpc : ∀ i refs, h.st.pc ≠ .gather v HEIGHT_2 i refs) :
    (v, HEIGHT_2) ∈ proposalKeys h.outs ∨ v < h.st.view := by
  rcases (ordered hl).last _ hfirst with heq | hbefore
  · -- the node is still at height 1 of the view: it is due, and nothing is there to wake it
    obtain ⟨rfl, hheight⟩ := Prod.mk.inj heq
    have hcount : js.length ≤ layerCerts E h.st (h.st.view, HEIGHT_1) 0 := by
      refine length_le_layerCerts hjs fun j hj => ⟨?_, hqcs j hj⟩
      obtain ⟨q, hq⟩ := Option.ne_none_iff_exists'.1 (hqcs j hj)
      obtain ⟨p, hp, hk, -, -⟩ := accepted hl hz hq
      obtain ⟨-, rfl⟩ := Prod.mk.inj hk
      exact mem_members_of_passes (List.of_mem_filter hp)
    cases woken hl hz ⟨hheight.symm, hown, hmany.trans hcount⟩ with
    | queued hk hv => exact absurd hv (hqueue _ hk)
    | sending hk hv => exact absurd hv (hsending _ hk)
    | gathering hg _ => exact absurd hg (hpc _ _)
  · have hbooted : h.st.booted = true := by
      by_contra hb
      rw [((ordered hl).asleep (by simpa using hb)).1] at hfirst
      exact absurd hfirst List.not_mem_nil
    have hcurrent := current_proposed hl hbooted
    obtain ⟨o, ho, p, hp, hk⟩ := exists_of_mem_proposalKeys hcurrent
    have hle := (proposal hl ho hp).height_le
    rw [(Prod.mk.inj hk).2] at hle
    rcases hbefore with hlt | ⟨hview, hlt⟩
    · exact Or.inr hlt
    · have hheight : h.st.height = HEIGHT_2 := le_antisymm hle hlt
      rw [← show v = h.st.view from hview, hheight] at hcurrent
      exact Or.inl hcurrent

namespace DagRun

open BigRun

/-- Node 0 takes the callback of its own certificate before it has enough of them, and then the others. -/
def wakeups : List (NodeOrder ℕ) :=
  bootFour ++ [0, 1, 2].flatMap (propose 0 HEIGHT_1 [0, 1, 2]) ++
  [0, 1, 2].flatMap fun p => votes 0 HEIGHT_1 [0] p ++ .act 0 .callback :: again 0 .main 6

def wakeupsWorld : NodeWorld ℕ (BigJob ℕ) :=
  (DAGBigCore.machine (Env.plain 4 fun _ => 0)).play (DAGBigCore.OwnProposals (Env.plain 4 fun _ => 0))
    (DAGBigCore.machine (Env.plain 4 fun _ => 0)).world wakeups

end DagRun

open DAGBigCore in
theorem no_lost_wakeup_four :
    (0, HEIGHT_1) ∈ proposalKeys (DagRun.wakeupsWorld.host 0).outs ∧
      ((0, HEIGHT_2) ∈ proposalKeys (DagRun.wakeupsWorld.host 0).outs ∨
        0 < (DagRun.wakeupsWorld.host 0).st.view) := by
  have hw : (machine (Env.plain 4 fun _ => 0)).Reach (OwnProposals (Env.plain 4 fun _ => 0))
      DagRun.wakeupsWorld := Machine.play_sound _ DagRun.wakeups
  have hl : (machine (Env.plain 4 fun _ => 0)).Local (OwnProposals (Env.plain 4 fun _ => 0)) 0
      (DagRun.wakeupsWorld.host 0) := hw.local 0
  have hspec : (∀ m ∈ (DagRun.wakeupsWorld.host 0).received,
        m.voted ≠ some (Env.plain 4 fun _ => 0).zero) ∧
      (0, HEIGHT_1) ∈ proposalKeys (DagRun.wakeupsWorld.host 0).outs ∧
      (∀ j ∈ [0, 1, 2],
        ((DagRun.wakeupsWorld.host 0).st.spbInstances (0, j)).blockQcs HEIGHT_1 ≠ none) ∧
      (DagRun.wakeupsWorld.host 0).st.callBackSpb = [] ∧
      (DagRun.wakeupsWorld.host 0).st.tasks = [] ∧
      (DagRun.wakeupsWorld.host 0).st.ready = true := by
    decide +kernel
  obtain ⟨hvoted, hfirst, hqcs, hqueue, htasks, hready⟩ := hspec
  refine ⟨hfirst, no_lost_wakeup hl (noZeroVote_of_voted fun m hm =>
    hvoted m (List.mem_of_mem_filter hm)) hfirst (hqcs 0 (by simp)) (by decide) (by decide) hqcs
    ?_ ?_ ?_⟩
  · simp [hqueue]
  · simp [htasks]
  · simp [(Node.idle_of_ready hready).2]

end S2Pac
