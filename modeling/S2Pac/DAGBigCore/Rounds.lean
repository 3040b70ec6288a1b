import S2Pac.DAGBigCore.Moves

/-!
# Runs of the DAG variant

A node is a pool of goroutines over the big instances (`runs`). Its proposals come in the order of
`(view, height)` (`ordered`), and a proposal refers to certificates of the layer before it that the
node held, of as many proposers as it has references (`proposal`). That makes the reachable worlds
orderly and the references sound.
-/

set_option linter.unusedSectionVars false

namespace S2Pac

open Lib BigSPB

variable {D : Type} [DecidableEq D]

/-- The view and the height of every proposal, in the order in which they were made. -/
def proposalKeys (outs : List (NodeOut D)) : List (ℤ × ℕ) :=
  outs.filterMap fun o =>
    match o.msg with
    | some (.propose p) => some (p.view, p.height)
    | _ => none

theorem proposalKeys_append (os os' : List (NodeOut D)) :
    proposalKeys (os ++ os') = proposalKeys os ++ proposalKeys os' := List.filterMap_append

theorem mem_proposalKeys {os : List (NodeOut D)} {o : NodeOut D} (ho : o ∈ os) {p : ProposeMsg D}
    (hp : o.msg = some (.propose p)) : (p.view, p.height) ∈ proposalKeys os :=
  List.mem_filterMap.2 ⟨o, ho, by simp [hp]⟩

theorem exists_of_mem_proposalKeys {os : List (NodeOut D)} {a : ℤ × ℕ} (ha : a ∈ proposalKeys os) :
    ∃ o ∈ os, ∃ p : ProposeMsg D, o.msg = some (.propose p) ∧ (p.view, p.height) = a := by
  obtain ⟨o, ho, he⟩ := List.mem_filterMap.1 ha
  split at he
  · next p hp => exact ⟨o, ho, p, hp, Option.some.inj he⟩
  · cases he

theorem countP_isProposal_eq (os : List (NodeOut D)) (view : ℤ) (height : ℕ) :
    os.countP (Out.carries (Msg.isProposal view height)) =
      (proposalKeys os).countP fun a => decide (a = (view, height)) := by
  rw [proposalKeys, List.countP_filterMap]
  refine List.countP_congr fun o _ => ?_
  unfold Out.carries
  cases o.msg with
  | none => simp
  | some m => cases m <;> simp

namespace DAGBigCore

variable {E : Env D} {self : NodeID}

theorem proposalKeys_quiet {os : List (NodeOut D)} (h : ∀ o ∈ os, Quiet o) :
    proposalKeys os = [] := by
  refine List.filterMap_eq_nil_iff.2 fun o ho => ?_
  have hq := h o ho
  unfold Quiet at hq
  split at hq <;> simp_all

theorem proposalKeys_coinStep {second : NodeID → ℤ → Bool} {c c' : BigNode D}
    {os : List (NodeOut D)} (h : CoinStep second c c' os) : proposalKeys os = [] := by
  cases h <;> rfl

/-- `advanceView` goes on to `getReference` only for the next block of the node. -/
theorem advanceView_cases (c : BigNode D) (view : ℤ) (height : ℕ) :
    (isNext c view height ∧ height ≤ HEIGHT_2 ∧
      advanceView c view height = { c with pc := .gather view height 0 [] }) ∨
    advanceView c view height = { c with pc := .idle } := by
  unfold advanceView
  split
  · next h => exact Or.inl ⟨h.1, h.2, rfl⟩
  · exact Or.inr rfl

/-! `advanceView` moves nothing but the main loop. -/

section Fields

variable (c : BigNode D) (view : ℤ) (height : ℕ)

@[simp] theorem advanceView_view : (advanceView c view height).view = c.view := by
  rw [advanceView_entry]

@[simp] theorem advanceView_height : (advanceView c view height).height = c.height := by
  rw [advanceView_entry]

@[simp] theorem advanceView_store : (advanceView c view height).store = c.store := by
  rw [advanceView_entry]

@[simp] theorem advanceView_eletor : (advanceView c view height).eletor = c.eletor := by
  rw [advanceView_entry]

@[simp] theorem advanceView_spbInstances : (advanceView c view height).spbInstances = c.spbInstances := by
  rw [advanceView_entry]

@[simp] theorem advanceView_weakVotes : (advanceView c view height).weakVotes = c.weakVotes := by
  rw [advanceView_entry]

@[simp] theorem advanceView_callBackSpb : (advanceView c view height).callBackSpb = c.callBackSpb := by
  rw [advanceView_entry]

@[simp] theorem advanceView_tasks : (advanceView c view height).tasks = c.tasks := by
  rw [advanceView_entry]

@[simp] theorem advanceView_booted : (advanceView c view height).booted = c.booted := by
  rw [advanceView_entry]

end Fields

section Local

variable {G : Machine.Guard NodeID (BigNode D) (Msg D) Act (Event D)} {h : NodeHost D (BigJob D)}

/-! ## The order of the proposals -/

/-- The proposals of a node so far, and the one it is working on. -/
structure Ordered (h : NodeHost D (BigJob D)) : Prop where
  sorted : (proposalKeys h.outs).Pairwise Before
  last : ∀ a ∈ proposalKeys h.outs,
    a = (h.st.view, h.st.height) ∨ Before a (h.st.view, h.st.height)
  asleep : h.st.booted = false → proposalKeys h.outs = [] ∧ h.st.pc = .idle ∧ h.st.view = 0 ∧
    h.st.height = HEIGHT_1
  next : ∀ view height i refs, h.st.pc = .gather view height i refs →
    isNext h.st view height ∧ height ≤ HEIGHT_2
  nonneg : 0 ≤ h.st.view

theorem before_of_isNext {c : BigNode D} {view : ℤ} {height : ℕ} (h : isNext c view height) :
    Before (c.view, c.height) (view, height) := by
  unfold isNext at h
  unfold Before
  dsimp only
  omega

theorem Ordered.of_quiet {c' : BigNode D} {l : List (Msg D)} {os : List (NodeOut D)}
    (ho : Ordered h) (hos : proposalKeys os = []) (hview : c'.view = h.st.view)
    (hheight : c'.height = h.st.height) (hbooted : c'.booted = h.st.booted)
    (hpc : h.st.booted = false → c'.pc = .idle)
    (hnext : ∀ view height i refs, c'.pc = .gather view height i refs →
      isNext h.st view height ∧ height ≤ HEIGHT_2) : Ordered ⟨c', l, h.outs ++ os⟩ := by
  have hk : proposalKeys (h.outs ++ os) = proposalKeys h.outs := by
    rw [proposalKeys_append, hos, List.append_nil]
  refine ⟨hk ▸ ho.sorted, fun a ha => ?_, fun hb => ?_, fun view height i refs hp => ?_, ?_⟩
  · rw [hk] at ha
    dsimp only
    rw [hview, hheight]
    exact ho.last a ha
  · obtain ⟨hnil, -, hv, hh⟩ := ho.asleep (hbooted ▸ hb)
    exact ⟨hk ▸ hnil, hpc (hbooted ▸ hb), hview.trans hv, hheight.trans hh⟩
  · have := hnext view height i refs hp
    unfold isNext at this ⊢
    dsimp only
    rw [hview, hheight]
    exact this
  · dsimp only
    rw [hview]
    exact ho.nonneg

theorem Ordered.propose {c' : BigNode D} {l : List (Msg D)} {p : ProposeMsg D} (ho : Ordered h)
    (hkey : Before (h.st.view, h.st.height) (p.view, p.height)) (hview : c'.view = p.view)
    (hheight : c'.height = p.height) (hbooted : c'.booted = true) (hpc : c'.pc = .idle)
    (hnonneg : 0 ≤ p.view) : Ordered ⟨c', l, h.outs ++ [.bcast (.propose p)]⟩ := by
  have hk : proposalKeys (h.outs ++ [.bcast (.propose p)]) =
      proposalKeys h.outs ++ [(p.view, p.height)] := by
    rw [proposalKeys_append]
    rfl
  have hlt : ∀ a ∈ proposalKeys h.outs, Before a (p.view, p.height) := by
    intro a ha
    rcases ho.last a ha with rfl | hb
    · exact hkey
    · exact hb.trans hkey
  refine ⟨?_, fun a ha => ?_, fun hb => ?_, fun view height i refs hp => ?_, ?_⟩
  · rw [hk, List.pairwise_append]
    refine ⟨ho.sorted, List.pairwise_singleton _ _, fun a ha b hb => ?_⟩
    rw [List.mem_singleton.1 hb]
    exact hlt a ha
  · rw [hk] at ha
    dsimp only
    rw [hview, hheight]
    rcases List.mem_append.1 ha with ha | ha
    · exact Or.inr (hlt a ha)
    · exact Or.inl (List.mem_singleton.1 ha)
  · exact absurd (hbooted.symm.trans hb) (by simp)
  · exact absurd (hpc.symm.trans hp) (by simp)
  · dsimp only
    rw [hview]
    exact hnonneg

theorem Ordered.advanceView {c₀ : BigNode D} {l : List (Msg D)} (ho : Ordered h)
    (hview : c₀.view = h.st.view) (hheight : c₀.height = h.st.height)
    (hbooted : c₀.booted = h.st.booted) (hb : h.st.booted = true) (view : ℤ) (height : ℕ) :
    Ordered ⟨advanceView c₀ view height, l, h.outs ++ []⟩ := by
  rcases advanceView_cases c₀ view height with ⟨hnext, hle, he⟩ | he
  · rw [he]
    refine ho.of_quiet rfl hview hheight hbooted (fun h => absurd (hb.symm.trans h) (by simp)) ?_
    intro view' height' i refs hp
    obtain ⟨rfl, rfl, -, -⟩ := Pc.gather.inj hp
    refine ⟨?_, hle⟩
    unfold isNext at hnext ⊢
    rw [← hview, ← hheight]
    exact hnext
  · rw [he]
    exact ho.of_quiet rfl hview hheight hbooted (fun _ => rfl) fun _ _ _ _ hp => nomatch hp

theorem Ordered.booted (ho : Ordered h) (hpc : h.st.pc ≠ .idle) : h.st.booted = true := by
  by_contra hb
  exact hpc (ho.asleep (by simpa using hb)).2.1

/-- **A node proposes in the order of `(view, height)`.** -/
theorem ordered (hl : (machine E).Local G self h) : Ordered h := by
  refine induction ?_ ?_ hl
  · refine ⟨List.Pairwise.nil, fun a ha => absurd ha List.not_mem_nil, fun _ => ⟨rfl, rfl, rfl, rfl⟩,
      fun _ _ _ _ hp => (nomatch hp), le_rfl⟩
  · intro h x c' os _ ho _ _ hm
    cases hm with
    | aside hs hq =>
      exact ho.of_quiet (proposalKeys_quiet hq) hs.view hs.height hs.booted
        (fun hb => hs.pc.trans (ho.asleep hb).2.1) (hs.pc ▸ ho.next)
    | boot batch hb =>
      obtain ⟨hnil, hpc, hview, hheight⟩ := ho.asleep hb
      have hk : ∀ p : ProposeMsg D, proposalKeys (h.outs ++ [.bcast (.propose p)]) =
          [(p.view, p.height)] := fun p => by
        rw [proposalKeys_append, hnil]
        rfl
      refine ⟨?_, fun a ha => Or.inl ?_, fun hb => (nomatch hb), fun _ _ _ _ hp => ?_, ho.nonneg⟩
      · rw [hk]
        exact List.pairwise_singleton _ _
      · rw [hk] at ha
        exact List.mem_singleton.1 ha
      · exact nomatch hpc.symm.trans hp
    | weak hs =>
      exact ho.of_quiet rfl hs.view hs.height hs.booted
        (fun hb => hs.pc.trans (ho.asleep hb).2.1) (hs.pc ▸ ho.next)
    | shares _ _ =>
      exact ho.of_quiet rfl rfl rfl rfl (fun hb => (ho.asleep hb).2.1) ho.next
    | elected hb _ _ _ =>
      exact ho.of_quiet rfl rfl rfl rfl (fun h => absurd (hb.symm.trans h) (by simp))
        fun _ _ _ _ hp => nomatch hp
    | process hs =>
      have hb : h.st.booted = true := ho.booted fun hpc => by cases hs <;> simp_all
      refine ho.of_quiet (proposalKeys_coinStep hs) ?_ ?_ ?_
        (fun h => absurd (hb.symm.trans h) (by simp)) ?_
      · cases hs <;> rfl
      · cases hs <;> rfl
      · cases hs <;> rfl
      · intro _ _ _ _ hp
        cases hs <;> cases hp
    | leave hpc =>
      exact ho.advanceView rfl rfl rfl (ho.booted (by simp [hpc])) _ _
    | advance view height hb _ hs => exact ho.advanceView hs.view hs.height hs.booted hb view height
    | ask hpc _ =>
      refine ho.of_quiet rfl rfl rfl rfl (fun hb => ?_) fun _ _ _ _ hp => ?_
      · exact nomatch hpc.symm.trans (ho.asleep hb).2.1
      · obtain ⟨rfl, rfl, -, -⟩ := Pc.gather.inj hp
        exact ho.next _ _ _ _ hpc
    | @propose view height i refs batch _ hpc _ _ =>
      have hnext := (ho.next _ _ _ _ hpc).1
      have hnonneg := ho.nonneg
      refine ho.propose (before_of_isNext hnext) rfl rfl (ho.booted (by simp [hpc])) rfl ?_
      unfold isNext at hnext
      change 0 ≤ view
      omega
    | few hpc _ _ =>
      exact ho.of_quiet rfl rfl rfl rfl (fun _ => rfl) fun _ _ _ _ hp => nomatch hp

end Local

/-! ## A node is a pool -/

theorem recv_frame {c : BigNode D} {m : Msg D} {r : BigMoved D} (h : recv E self c m = some r) :
    PoolFrame (spawn dagRules m) (Other dagRules) c r :=
  ((branches E).recv _ _ _ _ h).2.frame (C := code E self dagRules) fun _ ho => ho

theorem pool_act {c : BigNode D} {a : Act} {r : BigMoved D} (h : act E self c a = some r) :
    PoolStep (code E self dagRules) c a r :=
  (acting h).poolStep trivial (fun _ _ _ _ _ _ hs => hs) fun _ ho => ho

/-- **A node is a pool of goroutines**, whatever it is handed. -/
theorem runs : Runs E dagRules (machine E) where
  pool hl := pool_local rfl (fun _ _ _ hs => recv_frame hs) (fun _ _ _ _ _ hs => pool_act hs) hl

/-! ## References -/

section Local

variable {G : Machine.Guard NodeID (BigNode D) (Msg D) Act (Event D)} {h : NodeHost D (BigJob D)}

/-- The certificates `refs` of a layer are those that node `me` held when it asked its instances of the
proposers below `i`, one after the other. -/
structure Gathered (E : Env D) (G : Machine.Guard NodeID (BigNode D) (Msg D) Act (Event D))
    (me : NodeID) (l : List (Msg D)) (layer : ℤ × ℕ) (i : ℕ) (refs : List (BlockQC D)) : Prop where
  held : ∀ q ∈ refs, ∃ h₀, (machine E).Local G me h₀ ∧ h₀.received <+: l ∧
    (h₀.st.spbInstances (layer.1, q.proposer)).blockQcs layer.2 = some q
  sorted : (refs.map BlockQC.proposer).Pairwise (· < ·)
  bound : ∀ q ∈ refs, ∃ j < i, q.proposer = (j : ℤ)

theorem Gathered.mono {l l' : List (Msg D)} (hll : l <+: l') {layer : ℤ × ℕ} {i : ℕ}
    {refs : List (BlockQC D)} (hg : Gathered E G self l layer i refs) :
    Gathered E G self l' layer i refs where
  held q hq := by
    obtain ⟨h₀, hl₀, hpre, hq⟩ := hg.held q hq
    exact ⟨h₀, hl₀, hpre.trans hll, hq⟩
  sorted := hg.sorted
  bound := hg.bound

theorem gathered_nil (l : List (Msg D)) (layer : ℤ × ℕ) : Gathered E G self l layer 0 [] :=
  ⟨by simp, List.Pairwise.nil, by simp⟩

theorem Gathered.ask (hl : (machine E).Local G self h) {layer : ℤ × ℕ} {i : ℕ}
    {refs : List (BlockQC D)} (hg : Gathered E G self h.received layer i refs) :
    Gathered E G self h.received layer (i + 1) (refs ++
      ((h.st.spbInstances (layer.1, (i : ℤ))).blockQcs layer.2).toList) := by
  cases hq : (h.st.spbInstances (layer.1, (i : ℤ))).blockQcs layer.2 with
  | none =>
    rw [Option.toList_none, List.append_nil]
    refine ⟨hg.held, hg.sorted, fun q hq => ?_⟩
    obtain ⟨j, hj, hq⟩ := hg.bound q hq
    exact ⟨j, hj.trans (Nat.lt_succ_self i), hq⟩
  | some q =>
    have hp : q.proposer = (i : ℤ) := (runs.names hl hq).proposer_eq
    rw [Option.toList_some]
    refine ⟨fun q' hq' => ?_, ?_, fun q' hq' => ?_⟩
    · rcases List.mem_append.1 hq' with hq' | hq'
      · exact hg.held q' hq'
      · obtain rfl := List.mem_singleton.1 hq'
        exact ⟨h, hl, List.prefix_refl _, by rw [hp, hq]⟩
    · rw [List.map_append, List.pairwise_append]
      refine ⟨hg.sorted, List.pairwise_singleton _ _, fun a ha b hb => ?_⟩
      obtain ⟨q', hq', rfl⟩ := List.mem_map.1 ha
      obtain rfl := List.mem_singleton.1 hb
      obtain ⟨j, hj, hj'⟩ := hg.bound q' hq'
      rw [hj', hp]
      exact Int.ofNat_lt.2 hj
    · rcases List.mem_append.1 hq' with hq' | hq'
      · obtain ⟨j, hj, hq'⟩ := hg.bound q' hq'
        exact ⟨j, hj.trans (Nat.lt_succ_self i), hq'⟩
      · obtain rfl := List.mem_singleton.1 hq'
        exact ⟨i, Nat.lt_succ_self i, hp⟩

/-- What a proposal of node `me` looks like, and what it refers to. -/
structure Proposal (E : Env D) (G : Machine.Guard NodeID (BigNode D) (Msg D) Act (Event D))
    (me : NodeID) (l : List (Msg D)) (p : ProposeMsg D) : Prop where
  author : p.author = me ∧ p.b.author = me
  view : p.view = p.b.view
  height : p.height = p.b.height
  height_le : p.height ≤ HEIGHT_2
  nonneg : 0 ≤ p.view
  plain : p.b.qc = none ∧ p.docG = none
  references : (p.view = 0 ∧ p.height = HEIGHT_1 ∧ p.b.references = []) ∨
    (E.hightThreshold ≤ p.b.references.length ∧
      Gathered E G me l (layerBefore p.view p.height) E.n p.b.references)

theorem Proposal.mono {l l' : List (Msg D)} (hll : l <+: l') {p : ProposeMsg D}
    (hp : Proposal E G self l p) : Proposal E G self l' p where
  author := hp.author
  view := hp.view
  height := hp.height
  height_le := hp.height_le
  nonneg := hp.nonneg
  plain := hp.plain
  references := hp.references.imp_right fun h => ⟨h.1, h.2.mono hll⟩

/-- Where the main loop is in `getReference`, and the proposals that have been made. -/
structure Proposing (E : Env D) (G : Machine.Guard NodeID (BigNode D) (Msg D) Act (Event D))
    (me : NodeID) (l : List (Msg D)) (pc : Pc D) (outs : List (NodeOut D)) : Prop where
  gathered : ∀ view height i refs, pc = .gather view height i refs →
    i ≤ E.n ∧ Gathered E G me l (layerBefore view height) i refs
  proposed : ∀ o ∈ outs, ∀ p, o.msg = some (.propose p) → Proposal E G me l p

theorem Proposing.of_quiet {l l' : List (Msg D)} (hll : l <+: l') {pc pc' : Pc D}
    {outs os : List (NodeOut D)} (hp : Proposing E G self l pc outs) (hos : proposalKeys os = [])
    (hpc : ∀ view height i refs, pc' = .gather view height i refs →
      i ≤ E.n ∧ Gathered E G self l' (layerBefore view height) i refs) :
    Proposing E G self l' pc' (outs ++ os) where
  gathered := hpc
  proposed o ho p hm := by
    rcases List.mem_append.1 ho with ho | ho
    · exact (hp.proposed o ho p hm).mono hll
    · exact absurd (hos ▸ mem_proposalKeys ho hm) List.not_mem_nil

theorem Proposing.propose {l : List (Msg D)} {pc pc' : Pc D} {outs : List (NodeOut D)}
    {p : ProposeMsg D} (hp : Proposing E G self l pc outs) (hnew : Proposal E G self l p)
    (hpc : ∀ view height i refs, pc' ≠ .gather view height i refs) :
    Proposing E G self l pc' (outs ++ [.bcast (.propose p)]) where
  gathered view height i refs h := absurd h (hpc view height i refs)
  proposed o ho p' hm := by
    rcases List.mem_append.1 ho with ho | ho
    · exact hp.proposed o ho p' hm
    · rw [List.mem_singleton.1 ho] at hm
      cases hm
      exact hnew

theorem Proposing.advanceView {l l' : List (Msg D)} (hll : l <+: l') {pc : Pc D}
    {outs : List (NodeOut D)} (hp : Proposing E G self l pc outs) (c₀ : BigNode D) (view : ℤ)
    (height : ℕ) : Proposing E G self l' (advanceView c₀ view height).pc (outs ++ []) := by
  refine hp.of_quiet hll rfl fun view' height' i refs h => ?_
  rcases advanceView_cases c₀ view height with ⟨-, -, he⟩ | he <;> rw [he] at h
  · obtain ⟨rfl, rfl, rfl, rfl⟩ := Pc.gather.inj h
    exact ⟨Nat.zero_le _, gathered_nil _ _⟩
  · cases h

theorem proposing (hl : (machine E).Local G self h) :
    Proposing E G self h.received h.st.pc h.outs := by
  refine induction (P := fun h => Proposing E G self h.received h.st.pc h.outs) ?_ ?_ hl
  · exact ⟨fun _ _ _ _ hp => (nomatch hp), fun o ho => absurd ho List.not_mem_nil⟩
  · intro h x c' os hl hp _ _ hm
    have hll : h.received <+: h.received ++ x.heard := List.prefix_append _ _
    have hold : ∀ view height i refs, h.st.pc = .gather view height i refs → i ≤ E.n ∧
        Gathered E G self (h.received ++ x.heard) (layerBefore view height) i refs :=
      fun view height i refs hpc => (hp.gathered view height i refs hpc).imp_right (·.mono hll)
    cases hm with
    | aside hs hq => exact hp.of_quiet hll (proposalKeys_quiet hq) (hs.pc ▸ hold)
    | boot batch hb =>
      obtain ⟨-, hpc, hview, hheight⟩ := (ordered hl).asleep hb
      rw [Input.heard, List.append_nil]
      refine hp.propose ⟨⟨rfl, rfl⟩, rfl, rfl, ?_, ?_, ⟨rfl, rfl⟩, Or.inl ⟨hview, hheight, rfl⟩⟩ ?_
      · exact hheight.le.trans (Nat.zero_le _)
      · exact hview.ge
      · intro _ _ _ _ h
        exact nomatch hpc.symm.trans h
    | weak hs => exact hp.of_quiet hll rfl (hs.pc ▸ hold)
    | shares _ _ => exact hp.of_quiet hll rfl hold
    | elected _ _ _ _ => exact hp.of_quiet hll rfl fun _ _ _ _ h => nomatch h
    | process hs =>
      refine hp.of_quiet hll (proposalKeys_coinStep hs) fun _ _ _ _ h => ?_
      cases hs <;> cases h
    | leave _ => exact hp.advanceView hll _ _ _
    | advance view height _ _ _ => exact hp.advanceView hll _ view height
    | @ask view height i refs hpc hi =>
      refine hp.of_quiet hll rfl fun _ _ _ _ h => ?_
      obtain ⟨rfl, rfl, rfl, rfl⟩ := Pc.gather.inj h
      rw [Input.heard, List.append_nil]
      exact ⟨hi, (hp.gathered _ _ _ _ hpc).2.ask hl⟩
    | @propose view height i refs batch _ hpc hi hlen =>
      obtain ⟨hle, hg⟩ := hp.gathered _ _ _ _ hpc
      obtain rfl : i = E.n := le_antisymm hle hi
      obtain ⟨hnext, hh⟩ := (ordered hl).next _ _ _ _ hpc
      rw [Input.heard, List.append_nil]
      refine hp.propose ⟨⟨rfl, rfl⟩, rfl, rfl, hh, ?_, ⟨rfl, rfl⟩, Or.inr ⟨hlen, hg⟩⟩ ?_
      · have hnonneg := (ordered hl).nonneg
        unfold isNext at hnext
        change 0 ≤ view
        omega
      · intro _ _ _ _ h
        cases h
    | few _ _ _ => exact hp.of_quiet hll rfl fun _ _ _ _ h => nomatch h

theorem proposal (hl : (machine E).Local G self h) {o : NodeOut D} (ho : o ∈ h.outs)
    {p : ProposeMsg D} (hp : o.msg = some (.propose p)) : Proposal E G self h.received p :=
  (proposing hl).proposed o ho p hp

/-- A node of the DAG variant sends no reports. -/
theorem not_report (hl : (machine E).Local G self h) {o : NodeOut D} (ho : o ∈ h.outs)
    (r : ReportMsg D) : o.msg ≠ some (.report r) := by
  revert o
  refine induction (P := fun h => ∀ {o}, o ∈ h.outs → o.msg ≠ some (.report r)) ?_ ?_ hl
  · exact fun ho => absurd ho List.not_mem_nil
  · intro h x c' os _ ih _ _ hm o ho hr
    rcases List.mem_append.1 ho with hold | hnew
    · exact ih hold hr
    · cases hm with
      | aside _ hq =>
        have := hq o hnew
        unfold Quiet at this
        rw [hr] at this
        exact this
      | boot _ _ => rw [List.mem_singleton.1 hnew] at hr; cases hr
      | process hs =>
        cases hs with
        | handed _ _ => rw [List.mem_singleton.1 hnew] at hr; cases hr
        | _ => exact absurd hnew List.not_mem_nil
      | propose _ _ _ _ => rw [List.mem_singleton.1 hnew] at hr; cases hr
      | _ => exact absurd hnew List.not_mem_nil

theorem signed (hl : (machine E).Local G self h) {o : NodeOut D} (ho : o ∈ h.outs) {m : Msg D}
    (hm : o.msg = some m) : m.SignedBy self ∧ m.Proper := by
  cases runs.sent hl ho with
  | other hoth =>
    unfold Other at hoth
    rw [hm] at hoth
    cases m with
    | propose p =>
      have hp := proposal hl ho hm
      exact ⟨hp.author.1, hp.author.1.trans hp.author.2.symm, hp.view, hp.height, hp.height_le⟩
    | vote v => exact hoth.elim
    | finVote fv => exact hoth.elim
    | speedVote sv => exact hoth.elim
    | elect e => exact ⟨trivial, trivial⟩
    | randomCoin r => exact ⟨trivial, trivial⟩
    | report r => exact absurd hm (not_report hl ho r)
  | vote hp => cases hm; exact ⟨rfl, trivial⟩
  | propose batch hv hh hp => cases hm; exact ⟨rfl, rfl, rfl, rfl, le_rfl⟩
  | speedVote hv hh => cases hm; exact ⟨rfl, trivial⟩

theorem proposal_once (hl : (machine E).Local G self h) (view : ℤ) (height : ℕ) :
    h.outs.countP (Out.carries (Msg.isProposal view height)) ≤ 1 := by
  rw [countP_isProposal_eq]
  have hnodup : (proposalKeys h.outs).Nodup := by
    refine List.Pairwise.imp ?_ (ordered hl).sorted
    rintro a b hab rfl
    exact Before.irrefl a hab
  have hcount := List.nodup_iff_count_le_one.1 hnodup (view, height)
  rw [List.count_eq_countP] at hcount
  simpa [beq_eq_decide] using hcount

end Local

/-! ## Reachable worlds -/

section World

variable {G : Machine.Guard NodeID (BigNode D) (Msg D) Act (Event D)} {w : NodeWorld D (BigJob D)}

theorem orderly (hw : (machine E).Reach G w) : Orderly (machine E) w where
  signed i _ o ho m hm := signed (hw.local i) ho hm
  once i _ view height := by
    rw [← countP_isProposal fun o ho p hm => (proposal (hw.local i) ho hm).author.1]
    exact proposal_once (hw.local i) view height

theorem exists_backed (hw : (machine E).Reach G w) {i : NodeID} (hi : i ∈ (machine E).hosts)
    {layer : ℤ × ℕ} {refs : List (BlockQC D)}
    (hg : Gathered E G i (w.host i).received layer E.n refs) {q : BlockQC D} (hq : q ∈ refs) :
    q.Names layer.1 layer.2 q.proposer ∧
      ∃ b, Backed E (machine E) w q.proposer layer.1 layer.2 q.parentBlockHash b := by
  obtain ⟨h₀, hl₀, hpre, hq₀⟩ := hg.held q hq
  have hnames := runs.names hl₀ hq₀
  obtain ⟨b, hb, -⟩ := runs.blockQcs_sound (orderly hw) hw hi hl₀ hpre hq₀
  rw [hnames.view_eq, hnames.height_eq] at hb
  exact ⟨hnames, b, hb⟩

end World

end DAGBigCore

end S2Pac
