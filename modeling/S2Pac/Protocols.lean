import S2Pac.Ancestry
import S2Pac.BigCore.Agreement
import S2Pac.Core.Agreement

/-!
# Certificates and parents in the lean and the big protocol

What holds in every reachable world of either protocol, with no condition on the run: every certificate
stands for the one block of its proposer, view and height and was made of `HightThreshold()` votes for
it (`certificates_sound`), and parents come before their children (`parent_links_descend`).
-/

set_option linter.unusedSectionVars false

namespace S2Pac

open Lib

variable {D : Type} [DecidableEq D] {J : Type}

/-! ## Certificates -/

/-- The certificate is in an instance of a node, or in a message that a node has sent. -/
def Occurs (M : NodeMachine D J) (w : NodeWorld D J) (q : BlockQC D) : Prop :=
  ∃ i ∈ M.hosts,
    (∃ k, ((w.host i).st.spbInstances k).preQc = some q ∨
      ∃ height, ((w.host i).st.spbInstances k).blockQcs height = some q) ∨
    ∃ o ∈ (w.host i).outs, ∃ m, o.msg = some m ∧ q ∈ m.qcs

/-- The certificates of a world are sound, and there is one for a proposer, a view and a height. -/
structure CertificatesSound (E : Env D) (M : NodeMachine D J) (w : NodeWorld D J) : Prop where
  sound : ∀ q, Occurs M w q → QcSound E M w q
  block : ∀ q, Occurs M w q → ∀ b, Proposed w q.proposer b → b.view = q.view →
    b.height = q.height → b.hash E = q.parentBlockHash
  unique : ∀ q q', Occurs M w q → Occurs M w q' → q.view = q'.view → q.height = q'.height →
    q.proposer = q'.proposer → q.parentBlockHash = q'.parentBlockHash

theorem CertificatesSound.of_orderly {E : Env D} {M : NodeMachine D J} {w : NodeWorld D J}
    (ho : Orderly M w) (hs : ∀ q, Occurs M w q → QcSound E M w q) : CertificatesSound E M w where
  sound := hs
  block q hq b hb hview hheight := by
    obtain ⟨c, hc, -⟩ := hs q hq
    have hbc : b = c := ho.block_unique hc.host hb hc.proposed (hview.trans hc.view_eq.symm)
      (hheight.trans hc.height_eq.symm)
    exact hbc ▸ hc.hash
  unique q q' hq hq' hview hheight hproposer :=
    (hs q hq).unique ho (hs q' hq') hproposer hview hheight

/-- **Certificates are sound and unique** in the lean and the big protocol: a certificate that occurs
anywhere stands for the block of its proposer at its view and height, and was made of votes for it from
`HightThreshold()` nodes. -/
theorem certificates_sound (E : Env D) :
    (∀ w, (Core.machine E).Reach Machine.anyInput w → CertificatesSound E (Core.machine E) w) ∧
      ∀ w, (BigCore.machine E).Reach Machine.anyInput w →
        CertificatesSound E (BigCore.machine E) w := by
  refine ⟨fun w hw => .of_orderly (Core.orderly hw) ?_, fun w hw => .of_orderly (BigCore.orderly hw) ?_⟩
  · rintro q ⟨i, hi, ⟨k, hq⟩ | ⟨o, ho, m, hm, hq⟩⟩
    · exact Core.instance_qcs_sound hw hi hq
    · exact Core.qcs_sound hw hi ho hm hq
  · rintro q ⟨i, hi, ⟨k, hq⟩ | ⟨o, ho, m, hm, hq⟩⟩
    · exact BigCore.instance_qcs_sound hw hi hq
    · exact BigCore.qcs_sound hw hi ho hm hq

/-- The timely runs of four nodes are runs, -/
theorem reach_timely :
    (Core.machine (Env.plain 4 fun _ => 0)).Reach Machine.anyInput LeanRun.timelyWorld ∧
      (BigCore.machine (Env.plain 4 fun _ => 0)).Reach Machine.anyInput BigRun.timelyWorld :=
  ⟨Machine.Steps.mono (fun _ _ _ _ => trivial) (Machine.play_sound _ LeanRun.timely),
    Machine.Steps.mono (fun _ _ _ _ => trivial) (Machine.play_sound _ BigRun.timely)⟩

/-- and node 0 holds certificates of its own blocks in them. -/
theorem certificates_sound_four :
    ((∃ q, Occurs (Core.machine (Env.plain 4 fun _ => 0)) LeanRun.timelyWorld q) ∧
      CertificatesSound (Env.plain 4 fun _ => 0) (Core.machine (Env.plain 4 fun _ => 0))
        LeanRun.timelyWorld) ∧
    (∃ q, Occurs (BigCore.machine (Env.plain 4 fun _ => 0)) BigRun.timelyWorld q) ∧
      CertificatesSound (Env.plain 4 fun _ => 0) (BigCore.machine (Env.plain 4 fun _ => 0))
        BigRun.timelyWorld := by
  refine ⟨⟨?_, (certificates_sound _).1 _ reach_timely.1⟩, ?_,
    (certificates_sound _).2 _ reach_timely.2⟩
  · obtain ⟨q, hq⟩ := Option.isSome_iff_exists.1 (show
      (((LeanRun.timelyWorld.host 0).st.spbInstances (0, 0)).blockQcs HEIGHT_2).isSome by
        decide +kernel)
    exact ⟨q, 0, by decide, Or.inl ⟨_, Or.inr ⟨_, hq⟩⟩⟩
  · obtain ⟨q, hq⟩ := Option.isSome_iff_exists.1 (show
      (((BigRun.timelyWorld.host 0).st.spbInstances (0, 0)).blockQcs HEIGHT_2).isSome by
        decide +kernel)
    exact ⟨q, 0, by decide, Or.inl ⟨_, Or.inr ⟨_, hq⟩⟩⟩

/-! ## Parents -/

/-- The parents of a world come before their children. -/
structure Descends (E : Env D) (M : NodeMachine D J) (w : NodeWorld D J) : Prop where
  /-- The certificate of a block that was proposed, or is in the store of a node, is one of an earlier
  block that was proposed. -/
  parent : ∀ b, (Known M w b ∨ ∃ i ∈ M.hosts, ∃ d, getBlock (w.host i).st.store d = some b) →
    ∀ q, b.qc = some q → Before (q.view, q.height) (b.view, b.height) ∧
      ∃ c, Backed E M w q.proposer q.view q.height q.parentBlockHash c
  /-- A block has at most one parent, -/
  forest : ∀ b c c', ParentOf E M w c b → ParentOf E M w c' b → c = c'
  /-- and a proposed block has no infinite chain of them. -/
  wellFounded : WellFounded fun c b => Known M w b ∧ ParentOf E M w c b

theorem Ancestral.descends {E : Env D} {M : NodeMachine D J} {w : NodeWorld D J} {flagged : Bool}
    {G : Machine.Guard NodeID (Node D J) (Msg D) Act (Event D)} (hA : Ancestral E M w)
    (hM : Turns E flagged M) (hw : M.Reach G w) : Descends E M w where
  parent b hb q hq := by
    have hknown : Known M w b := by
      rcases hb with hb | ⟨i, hi, d, hd⟩
      · exact hb
      · -- what is stored was received, and what was received was proposed
        obtain ⟨-, p, hp, rfl⟩ := hM.store_source (hw.local i) hd
        obtain ⟨ha, hproposed⟩ := hA.orderly.proposed_of_received hw hi hp
        exact ⟨_, ha, hproposed⟩
    obtain ⟨c, hc, -⟩ := hA.qc_sound hknown hq
    exact ⟨hA.qc_before hknown hq, c, hc⟩
  forest _ _ _ hc hc' := hA.parent_unique hc hc'
  wellFounded := hA.wellFounded hM hw

/-- **Parents come before their children** in the lean and the big protocol. -/
theorem parent_links_descend (E : Env D) :
    (∀ w, (Core.machine E).Reach Machine.anyInput w → Descends E (Core.machine E) w) ∧
      ∀ w, (BigCore.machine E).Reach Machine.anyInput w → Descends E (BigCore.machine E) w := by
  refine ⟨fun w hw => Ancestral.descends ⟨Core.orderly hw, ?_, ?_⟩ Core.turns hw,
    fun w hw => Ancestral.descends ⟨BigCore.orderly hw, ?_, ?_⟩ BigCore.turns hw⟩
  · exact fun i hi o ho m hm q hq => Core.qcs_sound hw hi ho hm hq
  · exact fun i hi o ho m hm => Core.linked_step hw hi (Core.linked_received hw hi) ho hm
  · exact fun i hi o ho m hm q hq => BigCore.qcs_sound hw hi ho hm hq
  · exact fun i hi o ho m hm => BigCore.linked_step hw (BigCore.linked_received hw hi) ho hm

theorem parent_links_descend_four :
    Descends (Env.plain 4 fun _ => 0) (Core.machine (Env.plain 4 fun _ => 0))
        LeanRun.timelyWorld ∧
      Descends (Env.plain 4 fun _ => 0) (BigCore.machine (Env.plain 4 fun _ => 0))
        BigRun.timelyWorld :=
  ⟨(parent_links_descend _).1 _ reach_timely.1, (parent_links_descend _).2 _ reach_timely.2⟩

end S2Pac
