import S2Pac.DAGBigCore.History

/-!
# How a node of the DAG variant leaves a view

A node tries to leave a view when it has tossed the coin of the view, and at no other time. It does when it
is in the view by then and holds `HightThreshold()` height-2 certificates of the view and the block that it
commits (`leaves_view`). When the shares of the coin arrive before the certificates, or while the node is
still in the view before, it does not, and no later message makes it try again (`stays_in_view`), although a
certificate of height 1 makes it try to go on to height 2.
-/

set_option linter.unusedSectionVars false

namespace S2Pac

open Lib BigSPB

variable {D : Type} [DecidableEq D]

namespace DAGBigCore

variable {E : Env D} {self : NodeID}

/-- How many of the instances `i`, `i + 1`, … of a layer hold their certificate. -/
def layerCerts (E : Env D) (c : BigNode D) (layer : ℤ × ℕ) (i : ℕ) : ℕ :=
  (List.range' i (E.n - i)).countP fun j : ℕ =>
    ((c.spbInstances (layer.1, (j : ℤ))).blockQcs layer.2).isSome

theorem layerCerts_succ (c : BigNode D) (layer : ℤ × ℕ) {i : ℕ} (hi : i < E.n) :
    layerCerts E c layer i = layerCerts E c layer (i + 1) +
      ((c.spbInstances (layer.1, (i : ℤ))).blockQcs layer.2).toList.length := by
  have hrange : List.range' i (E.n - i) = i :: List.range' (i + 1) (E.n - (i + 1)) := by
    rw [show E.n - i = E.n - (i + 1) + 1 by omega, List.range'_succ]
  rw [layerCerts, layerCerts, hrange, List.countP_cons]
  cases (c.spbInstances (layer.1, (i : ℤ))).blockQcs layer.2 <;> simp

/-- Asking an instance moves its certificate from those to come to the references. -/
theorem length_add_layerCerts (c : BigNode D) (layer : ℤ × ℕ) {i : ℕ} (hi : i < E.n)
    (refs : List (BlockQC D)) :
    refs.length + layerCerts E c layer i =
      (refs ++ ((c.spbInstances (layer.1, (i : ℤ))).blockQcs layer.2).toList).length +
        layerCerts E c layer (i + 1) := by
  rw [layerCerts_succ c layer hi, List.length_append]
  omega

theorem layerCerts_of_le (c : BigNode D) (layer : ℤ × ℕ) {i : ℕ} (hi : E.n ≤ i) :
    layerCerts E c layer i = 0 := by
  rw [layerCerts, Nat.sub_eq_zero_of_le hi]
  rfl

theorem layerCerts_mono {c c' : BigNode D} (layer : ℤ × ℕ)
    (h : ∀ j : NodeID, (c.spbInstances (layer.1, j)).blockQcs layer.2 ≠ none →
      (c'.spbInstances (layer.1, j)).blockQcs layer.2 ≠ none) (i : ℕ) :
    layerCerts E c layer i ≤ layerCerts E c' layer i := by
  refine List.countP_mono_left fun j _ hj => ?_
  rw [Option.isSome_iff_ne_none] at hj ⊢
  exact h _ hj

/-- **The coin of `view` finds what it needs**: the block to be committed is in the store, and there are
`HightThreshold()` height-2 certificates of the view. -/
def Stocked (E : Env D) (view : ℤ) : Machine.Guard NodeID (BigNode D) (Msg D) Act (Event D) :=
  fun _ h x =>
    match x, h.st.pc with
    | .act .main, .fetch leader view' height => view' = view →
      (getBlock h.st.store ((h.st.spbInstances (view, leader)).blockHash height)).isSome = true
    | .act .main, .report _ view' => view' = view →
      E.hightThreshold ≤ layerCerts E h.st (view, HEIGHT_2) 0
    | _, _ => True

/-- **The coin of `view` finds the node in the view.** -/
def InView (view : ℤ) : Machine.Guard NodeID (BigNode D) (Msg D) Act (Event D) :=
  fun _ h x =>
    match x, h.st.pc with
    | .act .main, .report _ view' => view' = view → h.st.view = view
    | _, _ => True

/-- The runs in which `processCoin` of `view` comes neither before the certificates nor before the node. -/
def Ripe (E : Env D) (view : ℤ) : Machine.Guard NodeID (BigNode D) (Msg D) Act (Event D) :=
  fun i h x => Stocked E view i h x ∧ InView view i h x

instance (view : ℤ) (i : NodeID) (h : NodeHost D (BigJob D)) (x : Input (Msg D) Act) :
    Decidable (Stocked E view i h x) :=
  match x with
  | .act .main => by unfold Stocked; cases h.st.pc <;> infer_instance
  | .recv _ | .act .boot | .act (.task _) | .act .callback | .act .commitor | .act (.makeBatch _) => by
    unfold Stocked; cases h.st.pc <;> infer_instance

instance (view : ℤ) (i : NodeID) (h : NodeHost D (BigJob D)) (x : Input (Msg D) Act) :
    Decidable (InView view i h x) :=
  match x with
  | .act .main => by unfold InView; cases h.st.pc <;> infer_instance
  | .recv _ | .act .boot | .act (.task _) | .act .callback | .act .commitor | .act (.makeBatch _) => by
    unfold InView; cases h.st.pc <;> infer_instance

instance (view : ℤ) (i : NodeID) (h : NodeHost D (BigJob D)) (x : Input (Msg D) Act) :
    Decidable (Ripe E view i h x) :=
  inferInstanceAs (Decidable (_ ∧ _))

/-- The main loop is on its way out of the view, and will not fail for want of references. -/
def Leaving (E : Env D) (view : ℤ) (c : BigNode D) : Prop :=
  match c.pc with
  | .idle => False
  | .coin _ view' => view' = view
  | .decide _ view' => view' = view
  | .fetch _ view' _ => view' = view
  | .commit _ view' _ _ => view' = view
  | .report _ view' => view' = view
  | .gather view' height i refs => view' = view + 1 ∧ height = HEIGHT_1 ∧
      E.hightThreshold ≤ refs.length + layerCerts E c (view, HEIGHT_2) i

/-- The node has left the view, or has not tossed its coin yet, or is leaving it. -/
def OnTime (E : Env D) (view : ℤ) (c : BigNode D) : Prop :=
  view < c.view ∨ c.eletor.leaders view = none ∨ Leaving E view c

theorem OnTime.of_stays {view : ℤ} {c c' : BigNode D} (h : OnTime E view c)
    (hview : c'.view = c.view) (heletor : c'.eletor = c.eletor) (hpc : c'.pc = c.pc)
    (hgrows : ∀ k, (c.spbInstances k).Grows (c'.spbInstances k)) : OnTime E view c' := by
  unfold OnTime at h ⊢
  rw [hview, heletor]
  refine h.imp_right fun h => h.imp_right fun hl => ?_
  unfold Leaving at hl ⊢
  rw [hpc]
  split at hl
  case h_7 =>
    obtain ⟨hv, hh, hle⟩ := hl
    have hmono := layerCerts_mono (E := E) (view, HEIGHT_2) fun j => (hgrows (view, j)).blockQcs _
    exact ⟨hv, hh, hle.trans (Nat.add_le_add_left (hmono _) _)⟩
  all_goals exact hl

theorem OnTime.of_eletor {view : ℤ} {c c' : BigNode D} (h : OnTime E view c)
    (hl : ¬ Leaving E view c ∨ Leaving E view c') (hview : c'.view = c.view)
    (heletor : c'.eletor = c.eletor) : OnTime E view c' := by
  unfold OnTime at h ⊢
  rw [hview, heletor]
  refine h.imp_right fun h => ?_
  rcases h with hnone | hleaving
  · exact Or.inl hnone
  · exact Or.inr (hl.resolve_left fun hn => hn hleaving)

theorem leaders_of_shares {el el' : Elector} {e : ElectMsg} {res : Except ElectErr NodeID}
    (hadd : el.add E e = some (el', res)) (hres : ∀ leader, res = .ok leader → leader = NONE) :
    el'.leaders = el.leaders := by
  cases Elector.adds_of_add hadd with
  | elected _ hne _ _ => exact absurd (hres _ rfl) hne
  | _ => rfl

theorem leaving_coinStep {second : NodeID → ℤ → Bool} {view : ℤ} {c c' : BigNode D}
    {os : List (NodeOut D)} (hs : CoinStep second c c' os)
    (hfound : ∀ leader height, c.pc = .fetch leader view height →
      (getBlock c.store ((c.spbInstances (view, leader)).blockHash height)).isSome = true)
    (hl : Leaving E view c) : Leaving E view c' := by
  unfold Leaving at hl ⊢
  cases hs with
  | missing hpc hb =>
    rw [hpc] at hl
    subst hl
    have := hfound _ _ hpc
    rw [hb] at this
    cases this
  | speed hpc _ => rw [hpc] at hl; exact hl
  | slow hpc => rw [hpc] at hl; exact hl
  | second hpc _ => rw [hpc] at hl; exact hl
  | undecided hpc _ => rw [hpc] at hl; exact hl
  | found hpc _ => rw [hpc] at hl; exact hl
  | handed hpc _ => rw [hpc] at hl; exact hl

/-- A node that has enough certificates finds its way from the coin to `getReference`. -/
theorem leaving_advanceView {view : ℤ} {c : BigNode D} (hview : c.view = view)
    (hcert : E.hightThreshold ≤ layerCerts E c (view, HEIGHT_2) 0) :
    Leaving E view (advanceView c (view + 1) HEIGHT_1) := by
  have hnext : isNext c (view + 1) HEIGHT_1 ∧ HEIGHT_1 ≤ HEIGHT_2 :=
    ⟨Or.inl ⟨by rw [hview], rfl⟩, Nat.zero_le _⟩
  rw [advanceView, if_pos hnext, Leaving]
  exact ⟨rfl, rfl, by simpa [layerCerts] using hcert⟩

theorem onTime_move {view : ℤ} {h : NodeHost D (BigJob D)} {x : Input (Msg D) Act} {c' : BigNode D}
    {os : List (NodeOut D)} (ho : Ordered h) (hg : Ripe E view self h x) (hm : Move E self h.st x c' os)
    (ht : OnTime E view h.st) : OnTime E view c' := by
  have hidle : h.st.pc = .idle → ¬ Leaving E view h.st := fun hpc hl => by
    rw [Leaving, hpc] at hl
    exact hl
  cases hm with
  | aside hs _ => exact ht.of_stays hs.view hs.eletor hs.pc hs.grows
  | boot _ _ => exact ht.of_stays rfl rfl rfl fun _ => SPB.Grows.refl _
  | weak hs => exact ht.of_stays hs.view hs.eletor hs.pc hs.grows
  | shares hadd hres =>
    unfold OnTime at ht ⊢
    rw [leaders_of_shares hadd hres]
    exact ht
  | @elected e el leader hb hpc hadd hne =>
    -- it is this coin, or the leader of the view is still not known
    rcases ht with hlt | hnone | hl
    · exact Or.inl hlt
    · refine Or.inr ?_
      by_cases hv : e.view = view
      · exact Or.inr hv
      · refine Or.inl ?_
        cases Elector.adds_of_add hadd with
        | kept _ => exact absurd rfl hne
        | elected _ _ _ _ => exact (Function.update_of_ne (Ne.symm hv) _ _).trans hnone
    · exact absurd hl (hidle hpc)
  | process hs =>
    have hfound : ∀ leader height, h.st.pc = .fetch leader view height →
        (getBlock h.st.store ((h.st.spbInstances (view, leader)).blockHash height)).isSome = true := by
      intro leader height hpc
      have hstock := hg.1
      unfold Stocked at hstock
      rw [hpc] at hstock
      exact hstock rfl
    refine ht.of_eletor ?_ (by cases hs <;> rfl) (by cases hs <;> rfl)
    exact not_or_of_imp (leaving_coinStep hs hfound)
  | @leave leader view' hpc =>
    rcases ht with hlt | hnone | hl
    · exact Or.inl (by simpa using hlt)
    · exact Or.inr (Or.inl (by simpa using hnone))
    · obtain ⟨hstock, hin⟩ := hg
      unfold Stocked at hstock
      unfold InView at hin
      rw [hpc] at hstock hin
      rw [Leaving, hpc] at hl
      subst hl
      exact Or.inr (Or.inr (leaving_advanceView (hin rfl) (hstock rfl)))
  | advance view' height _ hpc hs =>
    exact ht.of_eletor (Or.inl (hidle hpc)) (by simp [hs.view]) (by simp [hs.eletor])
  | @ask view' height i refs hpc hi =>
    refine ht.of_eletor (not_or_of_imp fun hl => ?_) rfl rfl
    rw [Leaving, hpc] at hl
    obtain ⟨rfl, rfl, hle⟩ := hl
    refine ⟨rfl, rfl, ?_⟩
    have hlayer : layerBefore (view + 1) HEIGHT_1 = (view, HEIGHT_2) := by
      rw [layerBefore, if_pos rfl, Int.add_sub_cancel]
    rw [length_add_layerCerts _ _ hi] at hle
    rw [hlayer]
    exact hle
  | @propose view' height i refs batch _ hpc hi hlen =>
    have hnext := (ho.next _ _ _ _ hpc).1
    unfold isNext at hnext
    rcases ht with hlt | hnone | hl
    · refine Or.inl ?_
      change view < view'
      omega
    · exact Or.inr (Or.inl hnone)
    · rw [Leaving, hpc] at hl
      refine Or.inl ?_
      change view < view'
      omega
  | @few view' height i refs hpc hi hlen =>
    refine ht.of_eletor (Or.inl fun hl => ?_) rfl rfl
    rw [Leaving, hpc] at hl
    obtain ⟨-, -, hle⟩ := hl
    rw [layerCerts_of_le _ _ hi] at hle
    omega

end DAGBigCore

open DAGBigCore in
/-- **A node leaves a view when its coin comes in time**, that is, when the coin finds the node in the view
and what it needs. When the leader of the view is known and the main loop has done with it, the node is in a
later view, whatever it was handed and in whatever order. -/
theorem leaves_view {E : Env D} {self : NodeID} {h : NodeHost D (BigJob D)} {view : ℤ}
    (hl : (DAGBigCore.machine E).Local (Ripe E view) self h) (hidle : h.st.pc = .idle)
    (hleader : h.st.eletor.leaders view ≠ none) : view + 1 ≤ h.st.view := by
  have htime : OnTime E view h.st := by
    refine DAGBigCore.induction (P := fun h => OnTime E view h.st) (Or.inr (Or.inl rfl)) ?_ hl
    intro h x c' os hl ih hg _ hm
    exact onTime_move (ordered hl) hg hm ih
  rcases htime with hlt | hnone | hleaving
  · exact hlt
  · exact absurd hnone hleader
  · rw [Leaving, hidle] at hleaving
    exact hleaving.elim

/-! ## Runs of four nodes -/

namespace DagRun

open BigRun

/-- Node `i` handles what is on its way to it, and what follows from it. -/
def catchUp (i : NodeID) : List (NodeOrder ℕ) :=
  (List.replicate 5 (List.replicate 12 (.deliver i fun _ => true) ++ again i (.task 0) 25 ++
    again i .callback 3 ++ again i .main 6)).flatten

/-- The shares of the coin reach node 3 first, and then everything else. -/
def starved : List (NodeOrder ℕ) := opening ++ elect 0 3 ++ catchUp 3

/-- Nodes 0, 1 and 2 go on to view 1 and through it. Everything of view 1 reaches node 3 before the shares of
the coin of view 0. -/
def overtaken : List (NodeOrder ℕ) :=
  opening ++ [0, 1, 2].flatMap (elect 0) ++ [0, 1, 2].flatMap (propose 1 HEIGHT_1 [0, 1, 2, 3]) ++
  [0, 1, 2].flatMap (votes 1 HEIGHT_1 [0, 1, 2, 3]) ++ [0, 1, 2].flatMap proposeNext ++
  [0, 1, 2].flatMap (propose 1 HEIGHT_2 [0, 1, 2, 3]) ++
  [0, 1, 2].flatMap (votes 1 HEIGHT_2 [0, 1, 2, 3]) ++
  ([0, 1, 2].flatMap fun i => ([0, 1, 2].map fun p =>
    .deliver i fun m => Msg.isSpeedVote (1, p) m && decide (m.author = i)) ++ again i (.task 0) 9) ++
  elect 1 3 ++ [0, 1, 2].flatMap (propose 0 HEIGHT_2 [3]) ++ [0, 1, 2].flatMap (votes 0 HEIGHT_2 [3]) ++
  elect 0 3 ++ catchUp 3

/-- The world after `starved`. -/
def starvedWorld : NodeWorld ℕ (BigJob ℕ) :=
  (DAGBigCore.machine (Env.plain 4 fun _ => 0)).play (DAGBigCore.InView 0)
    (DAGBigCore.machine (Env.plain 4 fun _ => 0)).world starved

/-- The world after `overtaken`. -/
def overtakenWorld : NodeWorld ℕ (BigJob ℕ) :=
  (DAGBigCore.machine (Env.plain 4 fun _ => 0)).play (DAGBigCore.Stocked (Env.plain 4 fun _ => 0) 1)
    (DAGBigCore.machine (Env.plain 4 fun _ => 0)).world overtaken

/-- The world after `prompt`, where no coin comes too early. -/
def ripeWorld : NodeWorld ℕ (BigJob ℕ) :=
  (DAGBigCore.machine (Env.plain 4 fun _ => 0)).play (DAGBigCore.Ripe (Env.plain 4 fun _ => 0) 0)
    (DAGBigCore.machine (Env.plain 4 fun _ => 0)).world prompt

end DagRun

theorem DagRun.starvedWorld_reach :
    (DAGBigCore.machine (Env.plain 4 fun _ => 0)).Reach Machine.anyInput DagRun.starvedWorld :=
  Machine.Steps.mono (fun _ _ _ _ => trivial) (Machine.play_sound _ DagRun.starved)

theorem leaves_view_four : (DagRun.ripeWorld.host 0).st.eletor.leaders 0 = some 0 ∧
    1 ≤ (DagRun.ripeWorld.host 0).st.view := by
  have hw : (DAGBigCore.machine (Env.plain 4 fun _ => 0)).Reach
      (DAGBigCore.Ripe (Env.plain 4 fun _ => 0) 0) DagRun.ripeWorld :=
    Machine.play_sound _ DagRun.prompt
  have hspec : (DagRun.ripeWorld.host 0).st.ready = true ∧
      (DagRun.ripeWorld.host 0).st.eletor.leaders 0 = some 0 := by
    decide +kernel
  have hleader : (DagRun.ripeWorld.host 0).st.eletor.leaders 0 ≠ none := by
    rw [hspec.2]
    exact Option.some_ne_none 0
  have hl : (DAGBigCore.machine (Env.plain 4 fun _ => 0)).Local
      (DAGBigCore.Ripe (Env.plain 4 fun _ => 0) 0) 0 (DagRun.ripeWorld.host 0) := hw.local 0
  have hle := leaves_view hl (Node.idle_of_ready hspec.1).2 hleader
  exact ⟨hspec.2, hle⟩

/-- Node `i` has been handed everything that was sent to it and has nothing left to do, it knows the leader of
the view and has `HightThreshold()` height-2 certificates of it, and it is in the view. -/
structure StaysIn (E : Env D) (w : NodeWorld D (BigJob D)) (i : NodeID) (view : ℤ) : Prop where
  member : i ∈ E.members
  net : ∀ p ∈ w.net, p.1 ≠ i
  tasks : (w.host i).st.tasks = []
  callBackSpb : (w.host i).st.callBackSpb = []
  idle : (w.host i).st.pc = .idle
  leader : (w.host i).st.eletor.leaders view ≠ none
  certified : E.hightThreshold ≤ DAGBigCore.layerCerts E (w.host i).st (view, HEIGHT_2) 0
  view : (w.host i).st.view = view

/-- **A node can stay in a view for ever**, with four nodes that follow the code: because the coin comes
before the certificates, and, with all certificates there, because it comes before the node. -/
theorem stays_in_view : ∃ E : Env ℕ, E.n = 3 * E.tolerated + 1 ∧
    (∃ w i, (DAGBigCore.machine E).Reach (DAGBigCore.InView 0) w ∧ StaysIn E w i 0) ∧
    ∃ w i, (DAGBigCore.machine E).Reach (DAGBigCore.Stocked E 1) w ∧ StaysIn E w i 1 := by
  have hstarved : (∀ p ∈ DagRun.starvedWorld.net, p.1 ≠ 3) ∧
      (DagRun.starvedWorld.host 3).st.tasks = [] ∧ (DagRun.starvedWorld.host 3).st.callBackSpb = [] ∧
      (DagRun.starvedWorld.host 3).st.ready = true ∧
      (DagRun.starvedWorld.host 3).st.eletor.leaders 0 ≠ none ∧
      (Env.plain 4 fun _ => 0).hightThreshold ≤ DAGBigCore.layerCerts (Env.plain 4 fun _ => 0)
        (DagRun.starvedWorld.host 3).st (0, HEIGHT_2) 0 ∧ (DagRun.starvedWorld.host 3).st.view = 0 := by
    decide +kernel
  have hovertaken : (∀ p ∈ DagRun.overtakenWorld.net, p.1 ≠ 3) ∧
      (DagRun.overtakenWorld.host 3).st.tasks = [] ∧
      (DagRun.overtakenWorld.host 3).st.callBackSpb = [] ∧
      (DagRun.overtakenWorld.host 3).st.ready = true ∧
      (DagRun.overtakenWorld.host 3).st.eletor.leaders 1 ≠ none ∧
      (Env.plain 4 fun _ => 0).hightThreshold ≤ DAGBigCore.layerCerts (Env.plain 4 fun _ => 0)
        (DagRun.overtakenWorld.host 3).st (1, HEIGHT_2) 0 ∧
      (DagRun.overtakenWorld.host 3).st.view = 1 := by
    decide +kernel
  refine ⟨Env.plain 4 fun _ => 0, by decide,
    ⟨DagRun.starvedWorld, 3, Machine.play_sound _ DagRun.starved, ?_⟩,
    DagRun.overtakenWorld, 3, Machine.play_sound _ DagRun.overtaken, ?_⟩
  · obtain ⟨hnet, htasks, hback, hready, hleader, hcert, hview⟩ := hstarved
    exact ⟨by decide, hnet, htasks, hback, (Node.idle_of_ready hready).2, hleader, hcert, hview⟩
  · obtain ⟨hnet, htasks, hback, hready, hleader, hcert, hview⟩ := hovertaken
    exact ⟨by decide, hnet, htasks, hback, (Node.idle_of_ready hready).2, hleader, hcert, hview⟩

end S2Pac
