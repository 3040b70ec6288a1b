import S2Pac.Certified
import S2Pac.DAGBigCore.History

/-!
# What the blocks of the DAG variant refer to

`getReference` collects the certificates of a layer from the instances, and an instance makes a
certificate of the vote that completes the quorum, not of what it has recorded. The references of a
proposal are nevertheless those of the layer before it, of as many proposers as there are references,
and the blocks that they name are in the store of the node (`references_well_formed`).
-/

set_option linter.unusedSectionVars false

namespace S2Pac

open Lib BigSPB

variable {D : Type} [DecidableEq D]

namespace DAGBigCore

variable {E : Env D} {self : NodeID}

/-- The references are certificates of the layer `(view, height)`: at least `HightThreshold()`, of
different proposers, and each of them names a block in the store `st`. -/
structure WellReferenced (E : Env D) (st : Store D) (view : ℤ) (height : ℕ) (refs : List (BlockQC D)) :
    Prop where
  layer : ∀ q ∈ refs, q.view = view ∧ q.height = height
  enough : E.hightThreshold ≤ refs.length
  proposers : (refs.map BlockQC.proposer).Nodup
  stored : ∀ q ∈ refs, ∃ b, getBlock st q.parentBlockHash = some b ∧ b.hash E = q.parentBlockHash

section Local

variable {G : Machine.Guard NodeID (BigNode D) (Msg D) Act (Event D)} {h : NodeHost D (BigJob D)}

theorem accepted (hl : (machine E).Local G self h)
    (hz : NoZeroVote E (h.received.filter (Msg.passes E true))) {k : Key} {height : ℕ}
    {q : BlockQC D} (hq : (h.st.spbInstances k).blockQcs height = some q) :
    ∃ p, Msg.propose p ∈ h.received.filter (Msg.passes E true) ∧ k = (p.view, p.author) ∧
      p.height = height ∧ q.parentBlockHash = p.b.hash E :=
  accepted_of_certificate ((conducts E).run hl) hz hq

theorem Gathered.wellReferenced (hl : (machine E).Local G self h)
    (hz : NoZeroVote E (h.received.filter (Msg.passes E true))) {layer : ℤ × ℕ} {i : ℕ}
    {refs : List (BlockQC D)} (hg : Gathered E G self h.received layer i refs)
    (hlen : E.hightThreshold ≤ refs.length) :
    WellReferenced E h.st.store layer.1 layer.2 refs where
  layer q hq := by
    obtain ⟨h₀, hl₀, -, hq₀⟩ := hg.held q hq
    have hnames := runs.names hl₀ hq₀
    exact ⟨hnames.view_eq, hnames.height_eq⟩
  enough := hlen
  proposers := hg.sorted.imp fun hlt => ne_of_lt hlt
  stored q hq := by
    -- the block was accepted when the certificate was found, and what is stored stays
    obtain ⟨h₀, hl₀, hpre, hq₀⟩ := hg.held q hq
    obtain ⟨p, hp, -, -, he⟩ := accepted hl₀ (hz.mono (hpre.filter _).subset) hq₀
    obtain ⟨b, hb⟩ := filedAll_found ((hpre.filter _).subset hp)
    rw [← (conducts E).store_eq hl, ← he] at hb
    exact ⟨b, hb, ((conducts E).stored_source hl hb).1⟩

end Local

/-- **The proposals of a node are well formed**, whatever it is handed, if no vote names the zero
digest: a height-2 block refers to certificates of height 1 of its view, and a height-1 block to
certificates of height 2 of the view before. -/
theorem references_well_formed {h : NodeHost D (BigJob D)}
    (hl : (machine E).Local Machine.anyInput self h)
    (hz : NoZeroVote E (h.received.filter (Msg.passes E true))) {o : NodeOut D} (ho : o ∈ h.outs)
    {p : ProposeMsg D} (hp : o.msg = some (.propose p)) :
    (p.height = HEIGHT_2 → WellReferenced E h.st.store p.view HEIGHT_1 p.b.references) ∧
      (p.height = HEIGHT_1 → 0 < p.view →
        WellReferenced E h.st.store (p.view - 1) HEIGHT_2 p.b.references) := by
  have hprop := proposal hl ho hp
  constructor
  · intro hh
    rcases hprop.references with ⟨-, hfirst, -⟩ | ⟨hlen, hg⟩
    · exact absurd (hfirst.symm.trans hh) (by decide)
    · have hlayer : layerBefore p.view p.height = (p.view, HEIGHT_1) := by
        rw [layerBefore, hh]
        exact if_neg (by decide)
      rw [hlayer] at hg
      exact hg.wellReferenced hl hz hlen
  · intro hh hpos
    rcases hprop.references with ⟨hzero, -, -⟩ | ⟨hlen, hg⟩
    · exact absurd hzero hpos.ne'
    · have hlayer : layerBefore p.view p.height = (p.view - 1, HEIGHT_2) := by
        rw [layerBefore, if_pos hh]
      rw [hlayer] at hg
      exact hg.wellReferenced hl hz hlen

/-- Node 0 has proposed a height-2 block of view 0 and a height-1 block of view 1. -/
theorem references_well_formed_prompt :
    (∃ o ∈ (DagRun.promptWorld.host 0).outs, ∃ p, o.msg = some (.propose p) ∧ p.view = 0 ∧
      WellReferenced (Env.plain 4 fun _ => 0) (DagRun.promptWorld.host 0).st.store 0 HEIGHT_1
        p.b.references) ∧
    ∃ o ∈ (DagRun.promptWorld.host 0).outs, ∃ p, o.msg = some (.propose p) ∧ p.view = 1 ∧
      WellReferenced (Env.plain 4 fun _ => 0) (DagRun.promptWorld.host 0).st.store 0 HEIGHT_2
        p.b.references := by
  have hl : (machine (Env.plain 4 fun _ => 0)).Local Machine.anyInput 0
      (DagRun.promptWorld.host 0) := DagRun.promptWorld_reach.local 0
  have hspec : (∀ m ∈ (DagRun.promptWorld.host 0).received,
        m.voted ≠ some (Env.plain 4 fun _ => 0).zero) ∧
      (0, HEIGHT_2) ∈ proposalKeys (DagRun.promptWorld.host 0).outs ∧
      (1, HEIGHT_1) ∈ proposalKeys (DagRun.promptWorld.host 0).outs := by
    decide +kernel
  obtain ⟨hvoted, hsent⟩ := hspec
  have hz : NoZeroVote (Env.plain 4 fun _ => 0) ((DagRun.promptWorld.host 0).received.filter
      (Msg.passes (Env.plain 4 fun _ => 0) true)) :=
    noZeroVote_of_voted fun m hm => hvoted m (List.mem_of_mem_filter hm)
  constructor
  · obtain ⟨o, ho, p, hp, hk⟩ := exists_of_mem_proposalKeys hsent.1
    obtain ⟨hview, hheight⟩ := Prod.mk.inj hk
    have href := (references_well_formed hl hz ho hp).1 hheight
    rw [hview] at href
    exact ⟨o, ho, p, hp, hview, href⟩
  · obtain ⟨o, ho, p, hp, hk⟩ := exists_of_mem_proposalKeys hsent.2
    obtain ⟨hview, hheight⟩ := Prod.mk.inj hk
    have href := (references_well_formed hl hz ho hp).2 hheight (by omega)
    rw [hview] at href
    exact ⟨o, ho, p, hp, hview, href⟩

end DAGBigCore

end S2Pac
