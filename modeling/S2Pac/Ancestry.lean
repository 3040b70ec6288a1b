import S2Pac.Certificates
import S2Pac.MainLoop

/-!
# Parents

A block names its parent by a certificate, and the certificate stands for the block that its proposer
proposed at its view and height. In a world whose certificates are sound and whose messages are linked
(`Ancestral`) the parents come before their children, so that the proposed blocks form a forest.
-/

set_option linter.unusedSectionVars false

namespace S2Pac

open Lib

variable {D : Type} [DecidableEq D] {J : Type} {E : Env D} {M : NodeMachine D J}
  {G : Machine.Guard NodeID (Node D J) (Msg D) Act (Event D)} {w : NodeWorld D J}

/-- The block was proposed by some node. -/
def Known (M : NodeMachine D J) (w : NodeWorld D J) (b : Block D) : Prop :=
  ∃ i ∈ M.hosts, Proposed w i b

theorem Backed.known {proposer : NodeID} {view : ℤ} {height : ℕ} {d : D} {b : Block D}
    (hb : Backed E M w proposer view height d b) : Known M w b :=
  ⟨proposer, hb.host, hb.proposed⟩

/-- The certificate of `b` stands for the proposed block `c`. -/
def ParentOf (E : Env D) (M : NodeMachine D J) (w : NodeWorld D J) (c b : Block D) : Prop :=
  ∃ q, b.qc = some q ∧ Backed E M w q.proposer q.view q.height q.parentBlockHash c

/-- The place of a block in the order of views and heights. -/
def rank (b : Block D) : ℕ := 2 * b.view.toNat + b.height

/-- What a world needs for its blocks to form a forest. -/
structure Ancestral (E : Env D) (M : NodeMachine D J) (w : NodeWorld D J) : Prop where
  orderly : Orderly M w
  sound : ∀ i ∈ M.hosts, ∀ o ∈ (w.host i).outs, ∀ m, o.msg = some m → ∀ q ∈ m.qcs, QcSound E M w q
  linked : ∀ i ∈ M.hosts, ∀ o ∈ (w.host i).outs, ∀ m, o.msg = some m → m.Linked

namespace Ancestral

theorem proposal (hA : Ancestral E M w) {b : Block D} (hb : Known M w b) :
    ∃ i ∈ M.hosts, ∃ o ∈ (w.host i).outs, ∃ p, o.msg = some (.propose p) ∧ p.b = b ∧
      p.author = i ∧ b.author = i ∧ p.view = b.view ∧ p.height = b.height ∧
      b.height ≤ HEIGHT_2 := by
  obtain ⟨i, hi, o, ho, p, hp, rfl⟩ := hb
  obtain ⟨ha, ha', hv, hh, hle⟩ := hA.orderly.signed i hi o ho _ hp
  have ha : p.author = i := ha
  exact ⟨i, hi, o, ho, p, hp, rfl, ha, ha'.symm.trans ha, hv, hh, hh ▸ hle⟩

theorem height_le (hA : Ancestral E M w) {b : Block D} (hb : Known M w b) :
    b.height ≤ HEIGHT_2 := by
  obtain ⟨_, _, _, _, _, _, _, _, _, _, _, hle⟩ := hA.proposal hb
  exact hle

theorem qc_sound (hA : Ancestral E M w) {b : Block D} (hb : Known M w b) {q : BlockQC D}
    (hq : b.qc = some q) : QcSound E M w q := by
  obtain ⟨i, hi, o, ho, p, hp, rfl⟩ := hb
  exact hA.sound i hi o ho _ hp q (by simp [Msg.qcs, hq])

theorem qc_before (hA : Ancestral E M w) {b : Block D} (hb : Known M w b) {q : BlockQC D}
    (hq : b.qc = some q) : Before (q.view, q.height) (b.view, b.height) := by
  obtain ⟨i, hi, o, ho, p, hp, rfl, -, -, hv, hph, hle⟩ := hA.proposal hb
  have hlink := hA.linked i hi o ho _ hp
  rcases height_cases hle with h₁ | h₂
  · exact Or.inl (hv ▸ hlink.1 (hph.trans h₁) q hq)
  · obtain ⟨q', hq', hn⟩ := hlink.2 (hph.trans h₂)
    obtain rfl := Option.some.inj (hq.symm.trans hq')
    refine Or.inr ⟨hn.view_eq.trans hv, ?_⟩
    dsimp only
    rw [hn.height_eq, h₂]
    exact Nat.zero_lt_one

theorem view_nonneg {flagged : Bool} (hA : Ancestral E M w) (hM : Turns E flagged M)
    (hw : M.Reach G w) {b : Block D} (hb : Known M w b) : 0 ≤ b.view := by
  have hfirst : ∀ b, Known M w b → b.height = HEIGHT_1 → 0 ≤ b.view := by
    intro b hb hh
    obtain ⟨i, hi, o, ho, p, hp, rfl, -, -, hv, hph, -⟩ := hA.proposal hb
    exact hv ▸ (hM.proposed_first (hw.local i) ho hp (hph.trans hh)).nonneg
  rcases height_cases (hA.height_le hb) with h₁ | h₂
  · exact hfirst b hb h₁
  · -- a height-2 block carries the certificate of the height-1 block of its view
    obtain ⟨i, hi, o, ho, p, hp, rfl, -, -, hv, hph, -⟩ := hA.proposal hb
    obtain ⟨q, hq, hn⟩ := (hA.linked i hi o ho _ hp).2 (hph.trans h₂)
    obtain ⟨c, hc, -⟩ := hA.qc_sound hb hq
    have hnc := hfirst c hc.known (hc.height_eq.trans hn.height_eq)
    rw [hc.view_eq, hn.view_eq, hv] at hnc
    exact hnc

theorem rank_lt {flagged : Bool} (hA : Ancestral E M w) (hM : Turns E flagged M)
    (hw : M.Reach G w) {b c : Block D} (hb : Known M w b) (hc : ParentOf E M w c b) :
    rank c < rank b := by
  obtain ⟨q, hq, hc⟩ := hc
  have hbefore := hA.qc_before hb hq
  have hnc := hA.view_nonneg hM hw hc.known
  have hlec := hA.height_le hc.known
  rw [← hc.view_eq, ← hc.height_eq] at hbefore
  unfold Before at hbefore
  unfold rank
  simp only [HEIGHT_2] at hlec
  dsimp only at hbefore
  omega

theorem parent_unique (hA : Ancestral E M w) {b c c' : Block D} (hc : ParentOf E M w c b)
    (hc' : ParentOf E M w c' b) : c = c' := by
  obtain ⟨q, hq, hc⟩ := hc
  obtain ⟨q', hq', hc'⟩ := hc'
  obtain rfl := Option.some.inj (hq.symm.trans hq')
  exact hc.unique hA.orderly hc'

theorem wellFounded {flagged : Bool} (hA : Ancestral E M w) (hM : Turns E flagged M)
    (hw : M.Reach G w) : WellFounded fun c b => Known M w b ∧ ParentOf E M w c b :=
  Subrelation.wf (fun ⟨hb, hc⟩ => hA.rank_lt hM hw hb hc) (measure rank).wf

end Ancestral

end S2Pac
