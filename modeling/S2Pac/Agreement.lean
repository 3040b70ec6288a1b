import S2Pac.Ancestry
import S2Pac.Lib.Views

/-!
# From views to logs

The proposed blocks of a world as a forest, the blocks of its leaders as a chain of views, and hence
prefix-compatible logs. What the lean and the big protocol have to bring along is collected in
`Chained`: where their reports come from, and that a block that was handed to a commitor is not passed
over by enough reports.
-/

set_option linter.unusedSectionVars false

namespace S2Pac

open Lib

variable {D : Type} [DecidableEq D] {J : Type} {E : Env D} {M : NodeMachine D J}
  {G : Machine.Guard NodeID (Node D J) (Msg D) Act (Event D)} {w : NodeWorld D J}
  {leaders : ℤ → NodeID}

/-- The blocks that were proposed. -/
def proposals (M : NodeMachine D J) (w : NodeWorld D J) : List (Block D) :=
  M.hosts.flatMap fun i => (w.host i).outs.filterMap fun o =>
    match o.msg with
    | some (.propose p) => some p.b
    | _ => none

theorem known_iff {b : Block D} : Known M w b ↔ b ∈ proposals M w := by
  simp only [Known, Proposed, proposals, List.mem_flatMap, List.mem_filterMap]
  refine exists_congr fun i => and_congr_right fun _ => exists_congr fun o => and_congr_right fun _ => ?_
  constructor
  · rintro ⟨p, hp, rfl⟩
    simp [hp]
  · intro h
    split at h
    · next p hp => exact ⟨p, hp, Option.some.inj h⟩
    · cases h

/-- The proposed blocks have hashes of their own, and none of them the zero digest. -/
def HashesApart (E : Env D) (M : NodeMachine D J) (w : NodeWorld D J) : Prop :=
  ∀ b, Known M w b → b.hash E ≠ E.zero ∧ ∀ b', Known M w b' → b.hash E = b'.hash E → b = b'

instance : Decidable (HashesApart E M w) :=
  decidable_of_iff (∀ b ∈ proposals M w, b.hash E ≠ E.zero ∧
    ∀ b' ∈ proposals M w, b.hash E = b'.hash E → b = b') (by simp only [HashesApart, known_iff])

/-- The proposed block that a block's certificate names by its hash. -/
noncomputable def parent (E : Env D) (M : NodeMachine D J) (w : NodeWorld D J) (b : Block D) :
    Option (Block D) :=
  open Classical in
  b.qc.bind fun qc =>
    if h : ∃ p, Known M w p ∧ p.hash E = qc.parentBlockHash then some h.choose else none

/-- The height-1 blocks of a view. -/
def FirstBlock (M : NodeMachine D J) (w : NodeWorld D J) (view : ℤ) (b : Block D) : Prop :=
  Known M w b ∧ b.view = view ∧ b.height = HEIGHT_1

/-- The leader's block of a view at a height. -/
def LeadBlock (M : NodeMachine D J) (w : NodeWorld D J) (leaders : ℤ → NodeID) (height : ℕ)
    (view : ℤ) (b : Block D) : Prop :=
  leaders view ∈ M.hosts ∧ Proposed w (leaders view) b ∧ b.view = view ∧ b.height = height

/-- `HightThreshold()` nodes have reported a view at a level. -/
def Reported (E : Env D) (M : NodeMachine D J) (w : NodeWorld D J) (level : ℕ) (view : ℤ) : Prop :=
  ∃ S ⊆ M.hosts.toFinset, E.hightThreshold ≤ S.card ∧ ∀ j ∈ S, ∃ o ∈ (w.host j).outs, ∃ r,
    o.msg = some (.report r) ∧ r.view = view ∧ r.level = level

/-- What a report says of the leader of its view. -/
def Told (M : NodeMachine D J) (w : NodeWorld D J) (leaders : ℤ → NodeID) (r : ReportMsg D) : Prop :=
  (r.level = LEVEL_2 ∧ ∃ q, r.blockQc = some q ∧ q.Names r.view HEIGHT_2 (leaders r.view)) ∨
    (r.level = LEVEL_1 ∧ ∃ q, r.blockQc = some q ∧ q.Names r.view HEIGHT_1 (leaders r.view)) ∨
    (r.level = LEVEL_0 ∧ ∃ b, LeadBlock M w leaders HEIGHT_1 r.view b ∧ r.blockQc = b.qc)

theorem told_of_qcLEvel {s : SPB D} {r : ReportMsg D} (hq : s.qcLEvel = (r.level, r.blockQc))
    (hnames : ∀ {height q}, s.blockQcs height = some q → q.Names r.view height (leaders r.view))
    (hfirst : s.qcLEvel.1 = LEVEL_0 →
      ∃ b, LeadBlock M w leaders HEIGHT_1 r.view b ∧ s.preQc = b.qc) : Told M w leaders r := by
  unfold SPB.qcLEvel at hq hfirst
  split at hq
  · next hboth =>
    obtain ⟨hlev, hqc⟩ := Prod.mk.inj hq
    obtain ⟨q, hq'⟩ := Option.isSome_iff_exists.1 hboth.2
    exact Or.inl ⟨hlev.symm, q, hqc.symm.trans hq', hnames hq'⟩
  · next hboth =>
    split at hq
    · next h₁ =>
      obtain ⟨hlev, hqc⟩ := Prod.mk.inj hq
      obtain ⟨q, hq'⟩ := Option.isSome_iff_exists.1 h₁
      exact Or.inr (Or.inl ⟨hlev.symm, q, hqc.symm.trans hq', hnames hq'⟩)
    · next h₁ =>
      obtain ⟨hlev, hqc⟩ := Prod.mk.inj hq
      rw [if_neg hboth, if_neg h₁] at hfirst
      obtain ⟨b, hb, hpre⟩ := hfirst rfl
      exact Or.inr (Or.inr ⟨hlev.symm, b, hb, hqc.symm.trans hpre⟩)

theorem Backed.leadBlock {p : ProposeMsg D} {d : D}
    (hb : Backed E M w p.author p.view p.height d p.b) {view : ℤ} {height : ℕ}
    (hkey : (view, leaders view) = (p.view, p.author)) (hh : p.height = height) :
    LeadBlock M w leaders height view p.b := by
  obtain ⟨hv, ha⟩ := Prod.mk.inj hkey
  exact ⟨ha ▸ hb.host, ha ▸ hb.proposed, hb.view_eq.trans hv.symm, hb.height_eq.trans hh⟩

/-- What a world needs for its logs to agree. -/
structure Chained (E : Env D) (M : NodeMachine D J) (w : NodeWorld D J) (leaders : ℤ → NodeID) :
    Prop extends Ancestral E M w where
  hashes : HashesApart E M w
  told : ∀ i ∈ M.hosts, ∀ o ∈ (w.host i).outs, ∀ r, o.msg = some (.report r) → Told M w leaders r
  report_once : ∀ i ∈ M.hosts, ∀ view,
    (w.host i).outs.countP (Out.carries (Msg.isReportOf view)) ≤ 1
  decided : ∀ i ∈ M.hosts, ∀ view,
    ((w.host i).st.spbInstances (view, leaders view)).decCert = true →
    ¬ Reported E M w LEVEL_0 view
  speeded : ∀ i ∈ M.hosts, ∀ view,
    ((w.host i).st.spbInstances (view, leaders view)).speedCert = true →
    ¬ Reported E M w LEVEL_0 view ∧ ¬ Reported E M w LEVEL_1 view

theorem Turns.coin_received {flagged : Bool} (hM : Turns E flagged M) (hw : M.Reach G w)
    (hcoin : ∀ leader view, Elected E leader view → leader = leaders view) {i : NodeID}
    (hi : i ∈ M.hosts) {r : RandomCoinMsg} (hr : Msg.randomCoin r ∈ (w.host i).received) :
    r.leader = leaders r.view := by
  obtain ⟨j, hj, o, ho, hom⟩ := hw.sender hi hr
  exact hcoin _ _ (hM.announced (hw.local j) ho (Out.msg_of_msgTo hom))

namespace Chained

/-! ## The forest -/

theorem parent_eq (hC : Chained E M w leaders) {b c : Block D} {q : BlockQC D} (hq : b.qc = some q)
    (hc : Backed E M w q.proposer q.view q.height q.parentBlockHash c) :
    parent E M w b = some c := by
  have hex : ∃ p, Known M w p ∧ p.hash E = q.parentBlockHash :=
    ⟨c, ⟨_, hc.host, hc.proposed⟩, hc.hash⟩
  have hp := hex.choose_spec
  unfold parent
  rw [hq, Option.bind_some, dif_pos hex]
  rw [(hC.hashes _ hp.1).2 _ ⟨_, hc.host, hc.proposed⟩ (hp.2.trans hc.hash.symm)]

theorem exists_parent (hC : Chained E M w leaders) {b : Block D} (hb : Known M w b) {q : BlockQC D}
    (hq : b.qc = some q) : ∃ c, Backed E M w q.proposer q.view q.height q.parentBlockHash c ∧
      parent E M w b = some c := by
  obtain ⟨c, hc, -⟩ := hC.qc_sound hb hq
  exact ⟨c, hc, hC.parent_eq hq hc⟩

theorem parent_none {b : Block D} (hq : b.qc = none) : parent E M w b = none := by
  unfold parent
  rw [hq, Option.bind_none]

theorem parent_lt {flagged : Bool} (hC : Chained E M w leaders) (hM : Turns E flagged M)
    (hw : M.Reach G w) {b c : Block D} (hb : Known M w b) (hc : parent E M w b = some c) :
    Known M w c ∧ rank c < rank b := by
  cases hq : b.qc with
  | none =>
    rw [parent_none hq] at hc
    cases hc
  | some q =>
    obtain ⟨c', hc', hpar⟩ := hC.exists_parent hb hq
    rw [hpar] at hc
    obtain rfl : c' = c := Option.some.inj hc
    exact ⟨⟨_, hc'.host, hc'.proposed⟩, hC.rank_lt hM hw hb ⟨q, hq, hc'⟩⟩

/-- **The forest of the proposed blocks.** -/
noncomputable def tree {flagged : Bool} (hC : Chained E M w leaders) (hM : Turns E flagged M)
    (hw : M.Reach G w) : BlockTree E where
  mem := Known M w
  par := parent E M w
  hash_inj _ _ hb hb' hh := (hC.hashes _ hb).2 _ hb' hh
  par_none _ _ hq := parent_none hq
  par_some b hb q hq := by
    obtain ⟨c, hc, hp⟩ := hC.exists_parent hb hq
    exact ⟨c, ⟨_, hc.host, hc.proposed⟩, hc.hash, hp⟩
  path b hb := exists_rootPath_of_rank rank
    (fun _ _ hb hc => hC.parent_lt hM hw hb hc) hb

/-! ## The chain of views -/

theorem leadBlock_of_names {q : BlockQC D} {view : ℤ} {height : ℕ}
    (hn : q.Names view height (leaders view)) {c : Block D}
    (hc : Backed E M w q.proposer q.view q.height q.parentBlockHash c) :
    LeadBlock M w leaders height view c := by
  have hp := hn.proposer_eq
  exact ⟨hp ▸ hc.host, hp ▸ hc.proposed, hc.view_eq.trans hn.view_eq,
    hc.height_eq.trans hn.height_eq⟩

theorem leadBlock_unique (hC : Chained E M w leaders) {height : ℕ} {view : ℤ} {b b' : Block D}
    (hb : LeadBlock M w leaders height view b) (hb' : LeadBlock M w leaders height view b') :
    b = b' :=
  hC.orderly.block_unique hb.1 hb.2.1 hb'.2.1 (hb.2.2.1.trans hb'.2.2.1.symm)
    (hb.2.2.2.trans hb'.2.2.2.symm)

theorem reported_of_count (hC : Chained E M w leaders) (hw : M.Reach G w) {i : NodeID}
    (hi : i ∈ M.hosts) {view : ℤ} {level : ℕ}
    (hle : E.hightThreshold ≤ (w.host i).received.countP (Msg.isReport view level)) :
    Reported E M w level view := by
  have hname : ∀ j ∈ M.hosts, ∀ o ∈ (w.host j).outs, ∀ m, o.msg = some m →
      Msg.isReport view level m = true → m.author = j := by
    intro j hj o ho m hm hP
    cases m with
    | report r => exact (hC.orderly.signed j hj o ho _ hm).1
    | _ => simp at hP
  have hone : ∀ j ∈ M.hosts,
      (w.host j).outs.countP (Out.carries (Msg.isReport view level)) ≤ 1 := by
    intro j hj
    refine (List.countP_mono_left fun o _ hc => ?_).trans (hC.report_once j hj view)
    obtain ⟨m, hm, hP⟩ := Out.carries_iff.1 hc
    refine Out.carries_iff.2 ⟨m, hm, ?_⟩
    cases m <;> simp_all
  obtain ⟨S, hS, hcard, hrep⟩ := hw.exists_authors hi hname hone hle
  refine ⟨S, hS, hcard, fun j hj => ?_⟩
  obtain ⟨m, hm, hP, hj'⟩ := hrep j hj
  obtain ⟨j', hj'', o, ho, hom⟩ := hw.sender hi hm
  have hmsg := Out.msg_of_msgTo hom
  rw [hname j' hj'' o ho m hmsg hP] at hj'
  subst hj'
  cases m with
  | report r =>
    simp only [Msg.isReport, decide_eq_true_eq] at hP
    exact ⟨o, ho, r, hmsg, hP.1, hP.2⟩
  | _ => simp at hP

theorem first_step {flagged : Bool} (hC : Chained E M w leaders) (hM : Turns E flagged M)
    (hw : M.Reach G w) {view : ℤ} {b : Block D} (hb : FirstBlock M w view b) :
    (view = 0 ∧ parent E M w b = none) ∨ ∃ u, view = u + 1 ∧
      ((∃ c, LeadBlock M w leaders HEIGHT_2 u c ∧ parent E M w b = some c) ∨
        (Reported E M w LEVEL_1 u ∧ ∃ c, LeadBlock M w leaders HEIGHT_1 u c ∧
          parent E M w b = some c) ∨
        (Reported E M w LEVEL_0 u ∧ ∃ c, LeadBlock M w leaders HEIGHT_1 u c ∧
          parent E M w b = parent E M w c)) := by
  obtain ⟨hk, rfl, hh⟩ := hb
  obtain ⟨i, hi, o, ho, p, hp, rfl, ha, -, hv, hph, hle⟩ := hC.proposal hk
  rcases (hM.proposed_first (hw.local i) ho hp (hph.trans hh)).parent with
    ⟨h0, hq⟩ | ⟨r, hr, hrv, hqc, hjust⟩
  · exact Or.inl ⟨hv ▸ h0, parent_none hq⟩
  · refine Or.inr ⟨r.view, by omega, ?_⟩
    obtain ⟨j, hj, o', ho', hom⟩ := hw.sender hi hr
    have htold := hC.told j hj o' ho' r (Out.msg_of_msgTo hom)
    have hcert : ∀ {q height}, r.blockQc = some q → q.Names r.view height (leaders r.view) →
        ∃ c, LeadBlock M w leaders height r.view c ∧ parent E M w p.b = some c := by
      intro q height hq hn
      obtain ⟨c, hc, hpar⟩ := hC.exists_parent hk (hqc.trans hq)
      exact ⟨c, leadBlock_of_names hn hc, hpar⟩
    have hrep : r.level ≠ LEVEL_2 → Reported E M w r.level r.view := by
      intro hne
      rcases hjust with h2 | ⟨-, hle⟩
      · exact absurd h2 hne
      · exact hC.reported_of_count hw hi hle
    rcases htold with ⟨hl, q, hq, hn⟩ | ⟨hl, q, hq, hn⟩ | ⟨hl, c, hc, hq⟩
    · exact Or.inl (hcert hq hn)
    · rw [hl] at hrep
      exact Or.inr (Or.inl ⟨hrep (by decide), hcert hq hn⟩)
    · rw [hl] at hrep
      refine Or.inr (Or.inr ⟨hrep (by decide), c, hc, ?_⟩)
      unfold parent
      rw [hqc, hq]

/-- **The leaders' blocks form a chain of views.** -/
theorem views {flagged : Bool} (hC : Chained E M w leaders) (hM : Turns E flagged M)
    (hw : M.Reach G w) : Views (parent E M w) (FirstBlock M w) (LeadBlock M w leaders HEIGHT_1)
      (LeadBlock M w leaders HEIGHT_2) (Reported E M w LEVEL_0) (Reported E M w LEVEL_1) where
  nonneg _ b hb := hb.2.1 ▸ hC.view_nonneg hM hw hb.1
  lead_first _ b hb := ⟨⟨_, hb.1, hb.2.1⟩, hb.2.2⟩
  lead_unique _ _ _ hb hb' := hC.leadBlock_unique hb hb'
  next_unique _ _ _ hb hb' := hC.leadBlock_unique hb hb'
  next_par v c hc := by
    obtain ⟨hhost, ⟨o, ho, p, hp, rfl⟩, hv, hh⟩ := hc
    have hk : Known M w p.b := ⟨_, hhost, o, ho, p, hp, rfl⟩
    obtain ⟨ha, -, hpv, hph, -⟩ := hC.orderly.signed _ hhost o ho _ hp
    have ha : p.author = leaders v := ha
    obtain ⟨q, hq, hn⟩ := (hC.linked _ hhost o ho _ hp).2 (hph.trans hh)
    obtain ⟨b, hb, hpar⟩ := hC.exists_parent hk hq
    rw [hpv, hv, ha] at hn
    exact ⟨b, leadBlock_of_names hn hb, hpar⟩
  step _ _ hb := hC.first_step hM hw hb

/-! ## The logs -/

theorem decided_of_handed {flagged : Bool} (hC : Chained E M w leaders) (hM : Turns E flagged M)
    (hw : M.Reach G w) (hcoin : ∀ leader view, Elected E leader view → leader = leaders view)
    {i : NodeID} (hi : i ∈ M.hosts)
    (hrec : ∀ h, M.Local G i h → ∀ k height, height ≤ HEIGHT_2 →
      Turns.Recorded E h.received k height ((h.st.spbInstances k).blockHash height))
    {leader : NodeID} {view : ℤ} {height : ℕ} {b : Block D}
    (ho : Out.event (.handed leader view height b) ∈ (w.host i).outs) :
    Decided (LeadBlock M w leaders HEIGHT_1) (LeadBlock M w leaders HEIGHT_2)
      (Reported E M w LEVEL_0) (Reported E M w LEVEL_1) view b := by
  obtain ⟨hled, htested, ⟨p, hp, rfl⟩, hrecd⟩ := (hM.handing (hw.local i) hrec).2 _ _ _ _ ho
  obtain rfl : leader = leaders view := by
    rcases hled with he | ⟨r, hr, rfl, rfl⟩
    · exact hcoin _ _ he
    · exact hM.coin_received hw hcoin hi hr
  have hb := hC.orderly.backed_of_received (E := E) hw hi hp
  have hk : Known M w p.b := ⟨_, hb.host, hb.proposed⟩
  rcases hrecd with hz | ⟨p', hp', hkey, hh, hhash⟩
  · exact absurd hz (hC.hashes _ hk).1
  · have hb' := hC.orderly.backed_of_received (E := E) hw hi hp'
    have heq : p.b = p'.b := (hC.hashes _ hk).2 _ ⟨_, hb'.host, hb'.proposed⟩ hhash
    have hlead : LeadBlock M w leaders height view p.b := heq ▸ hb'.leadBlock hkey hh
    rcases htested with ⟨rfl, hs⟩ | ⟨rfl, hd⟩
    · exact Or.inr ⟨hlead, hC.speeded i hi view hs⟩
    · exact Or.inl ⟨hlead, hC.decided i hi view hd⟩

/-- **The logs of two nodes are prefix-compatible.** -/
theorem prefix_compatible {flagged : Bool} (hC : Chained E M w leaders) (hM : Turns E flagged M)
    (hw : M.Reach G w) (hcoin : ∀ leader view, Elected E leader view → leader = leaders view)
    (hrec : ∀ i ∈ M.hosts, ∀ h, M.Local G i h → ∀ k height, height ≤ HEIGHT_2 →
      Turns.Recorded E h.received k height ((h.st.spbInstances k).blockHash height))
    {i j : NodeID} (hi : i ∈ M.hosts) (hj : j ∈ M.hosts) :
    emitted (w.host i).outs <+: emitted (w.host j).outs ∨
      emitted (w.host j).outs <+: emitted (w.host i).outs := by
  have hmem : ∀ i ∈ M.hosts, ∀ p, Msg.propose p ∈ (w.host i).received →
      (hC.tree hM hw).mem p.b := by
    intro i hi p hp
    obtain ⟨hhost, hprop⟩ := hC.orderly.proposed_of_received hw hi hp
    exact ⟨_, hhost, hprop⟩
  obtain ⟨passed, hinv, hsrc⟩ := hM.log (hw.local i) (hrec i hi) (hmem i hi)
  obtain ⟨passed', hinv', hsrc'⟩ := hM.log (hw.local j) (hrec j hj) (hmem j hj)
  have hdec : ∀ b ∈ passed ++ passed', ∃ view, Decided (LeadBlock M w leaders HEIGHT_1)
      (LeadBlock M w leaders HEIGHT_2) (Reported E M w LEVEL_0) (Reported E M w LEVEL_1) view b := by
    intro b hb
    rcases List.mem_append.1 hb with hb | hb
    · obtain ⟨_, view, _, ho⟩ := hsrc b hb
      exact ⟨view, hC.decided_of_handed hM hw hcoin hi (hrec i hi) ho⟩
    · obtain ⟨_, view, _, ho⟩ := hsrc' b hb
      exact ⟨view, hC.decided_of_handed hM hw hcoin hj (hrec j hj) ho⟩
  refine hinv.prefix_compatible hinv' fun x hx y hy => ?_
  obtain ⟨_, hdx⟩ := hdec x hx
  obtain ⟨_, hdy⟩ := hdec y hy
  exact (hC.views hM hw).comparable hdx hdy

end Chained

end S2Pac
