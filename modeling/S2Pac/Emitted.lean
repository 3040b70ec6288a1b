import S2Pac.Slots
import S2Pac.Storing

/-!
# What a commitor works on

The two commitors make up no blocks: what they have in hand was passed to `Commit` or comes out of the
store, and `processCoin` passes on what `getBlock` has returned. So all that they emit has come in with
proposals (`Conducts.source`), in the three protocols.
-/

set_option linter.unusedSectionVars false

namespace S2Pac

open Lib

variable {D : Type} [DecidableEq D] {J : Type}

/-- The block has come in with a proposal. -/
def Arrived (l : List (Msg D)) (b : Block D) : Prop := ∃ p, Msg.propose p ∈ l ∧ p.b = b

theorem Arrived.mono {l l' : List (Msg D)} (hl : l ⊆ l') {b : Block D} (h : Arrived l b) :
    Arrived l' b :=
  h.imp fun _ hp => ⟨hl hp.1, hp.2⟩

/-- The blocks that `run` is at. -/
def Work.blocks : Work D → List (Block D)
  | .idle => []
  | .walk queue current => current :: queue
  | .emit rest => rest
  | .bfs queue => queue

/-- The blocks that a commitor has in hand. -/
def Commitor.blocks (c : Commitor D) : List (Block D) := c.blocksChan ++ c.work.blocks

theorem Commitor.commit_blocks {c c' : Commitor D} {b x : Block D} (h : c.commit b = some c')
    (hx : x ∈ c'.blocks) : x ∈ c.blocks ∨ x = b := by
  unfold Commitor.commit at h
  split at h
  · cases h
    exact Or.inl hx
  · split at h
    · cases h
      simp only [Commitor.blocks, List.mem_append, List.mem_singleton] at hx ⊢
      tauto
    · cases h

/-- A commitor that makes up no blocks. -/
def Draws (run : Store D → Commitor D → Option (Commitor D × List (Block D))) : Prop :=
  ∀ st c c' bs, run st c = some (c', bs) → ∀ b, b ∈ c'.blocks ∨ b ∈ bs →
    b ∈ c.blocks ∨ ∃ d, getBlock st d = some b

theorem Commitor.draws (E : Env D) : Draws (Commitor.run E) := by
  intro st c c' bs h b hb
  cases step_of_run h with
  | wait _ _ _ => exact Or.inl (hb.resolve_right List.not_mem_nil)
  | climb hw hqc hp _ =>
    rcases hb with hb | hb
    · simp only [Commitor.blocks, Work.blocks, hw, List.mem_append, List.mem_cons, List.not_mem_nil,
        or_false] at hb ⊢
      rcases hb with hb | rfl | hb | rfl
      · exact Or.inl (Or.inl hb)
      · exact Or.inr ⟨_, hp⟩
      · exact Or.inl (Or.inr (Or.inr hb))
      · exact Or.inr ⟨_, hp⟩
    · exact absurd hb List.not_mem_nil
  | _ => left; simp_all [Commitor.blocks, Work.blocks]; try tauto

theorem DAGCommitor.draws (E : Env D) : Draws (DAGCommitor.run E) := by
  intro st c c' bs h b hb
  cases step_of_run h with
  | emit hw hcom =>
    simp only [Commitor.blocks, Work.blocks, hw, resolved, List.mem_append, List.mem_cons,
      List.mem_filterMap, List.not_mem_nil, or_false] at hb ⊢
    rcases hb with (hb | hb | ⟨qc, -, hqc⟩) | rfl
    · exact Or.inl (Or.inl hb)
    · exact Or.inl (Or.inr (Or.inr hb))
    · exact Or.inr ⟨_, hqc⟩
    · exact Or.inl (Or.inr (Or.inl rfl))
  | _ => left; simp_all [Commitor.blocks, Work.blocks]; try tauto

namespace Conducts

variable {E : Env D} {docG : Bool} {spawn : Msg D → List (Key × J)}
  {step : NodeID → Key → SPB D → J → SPB D → List J → List (NodeOut D) → Prop}
  {second : Node D J → NodeID → ℤ → Bool} {M : Machine NodeID (Node D J) (Msg D) Act (Event D)}
  {G : Machine.Guard NodeID (Node D J) (Msg D) Act (Event D)} {self : NodeID} {h : NodeHost D J}
  {run : Store D → Commitor D → Option (Commitor D × List (Block D))}

/-- What `processCoin` is about to pass to `Commit` has come in. -/
def Handover (h : NodeHost D J) : Prop :=
  ∀ leader view height b, h.st.pc = .commit leader view height b → Arrived h.received b

theorem handover_of_recv {m : Msg D} {r : Moved D J} (hs : RecvStep E docG spawn h.st m r)
    (ih : Handover h) : Handover ⟨r.1, h.received ++ [m], h.outs ++ r.2⟩ := by
  intro leader view height b hb
  rcases hs.pc with he | hout
  · exact (ih leader view height b (he.symm.trans hb)).mono (List.subset_append_left _ _)
  · have hb : r.1.pc = .commit leader view height b := hb
    rw [hb] at hout
    exact hout.elim

theorem handover_of_act (hM : Conducts E docG spawn step second M) (hl : M.Local G self h) {a : Act}
    {r : Moved D J} (hs : M.act self h.st a = some r) (ih : Handover h) :
    Handover ⟨r.1, h.received, h.outs ++ r.2⟩ := by
  obtain ⟨c, os⟩ := r
  intro leader view height b hb
  have hb : c.pc = .commit leader view height b := hb
  cases hM.act _ _ _ _ hs with
  | task _ _ _ _ _ hmain => exact ih _ _ _ _ (hmain.pc.symm.trans hb)
  | coin _ hcoin =>
    cases hcoin with
    | found hp hfound =>
      cases hb
      obtain ⟨-, p, hp, rfl⟩ := hM.stored_source hl hfound
      exact ⟨p, (List.mem_filter.1 hp).1, rfl⟩
    | _ => cases hb
  | @commitor cm _ hcm _ _ _ =>
    obtain rfl : c = { h.st with commitor := cm } := hcm
    exact ih _ _ _ _ hb
  | rest _ _ _ _ _ hpc _ =>
    rcases hpc with he | hout
    · exact ih _ _ _ _ (he.symm.trans hb)
    · have hout : c.pc.Outside := hout
      rw [hb] at hout
      exact hout.elim

/-- **Induction over what happens to the commitor**: messages come in, blocks that have come in are passed
to `Commit`, and `run` takes its steps over a store of blocks that have come in. -/
theorem log_induction (hM : Conducts E docG spawn step second M)
    (hact : ∀ c r, M.act self c .commitor = some r → c.stepCommitor run = some r)
    {R : List (Msg D) → Commitor D → List (Block D) → Prop} (hstart : R [] Commitor.new [])
    (hhear : ∀ l m c log, R l c log → R (l ++ [m]) c log)
    (hcommit : ∀ l c log b c', R l c log → Arrived l b → c.commit b = some c' → R l c' log)
    (hrun : ∀ l st c log c' bs, R l c log → (∀ d b, getBlock st d = some b → Arrived l b) →
      run st c = some (c', bs) → R l c' (log ++ bs))
    (hl : M.Local G self h) : R h.received h.st.commitor (emitted h.outs) := by
  have hquiet {outs os : List (NodeOut D)} (hos : ∀ e, Out.event e ∉ os) :
      emitted (outs ++ os) = emitted outs := by
    have hnil : emitted os = [] := Turns.emitted_eq_nil fun o ho b he => hos (.emit b) (he ▸ ho)
    rw [emitted, List.filterMap_append, ← emitted, ← emitted, hnil, List.append_nil]
  suffices hboth : Handover h ∧ R h.received h.st.commitor (emitted h.outs) from hboth.2
  induction hl with
  | start =>
    rw [Machine.start, hM.init]
    refine ⟨fun _ _ _ _ hpc => ?_, hstart⟩
    cases hpc
  | recv _ _ hs ih =>
    have hrs := hM.recv _ _ _ _ hs
    have hcom := hrs.commitor
    dsimp only at hcom ⊢
    rw [hquiet hrs.events, hcom]
    exact ⟨handover_of_recv hrs ih.1, hhear _ _ _ _ ih.2⟩
  | @act h a s o hl _ hs ih =>
    refine ⟨handover_of_act hM hl hs ih.1, ?_⟩
    have hkeep (hcom : s.commitor = h.st.commitor) (hos : ∀ e, Out.event e ∉ o) :
        R h.received s.commitor (emitted (h.outs ++ o)) := by
      rw [hquiet hos, hcom]
      exact ih.2
    cases hM.act _ _ _ _ hs with
    | task _ _ hstep _ _ hmain => exact hkeep hmain.commitor fun e => hM.quiet _ _ _ _ _ _ _ hstep e
    | coin _ hcoin =>
      cases hcoin with
      | handed hp hcm =>
        have hlog : ∀ leader view height (b : Block D),
            emitted (h.outs ++ [.event (.handed leader view height b)]) = emitted h.outs := by
          intro leader view height b
          simp [emitted]
        dsimp only
        rw [hlog]
        exact hcommit _ _ _ _ _ ih.2 (ih.1 _ _ _ _ hp) hcm
      | _ => exact hkeep rfl (by simp)
    | commitor ha _ _ _ _ =>
      subst ha
      have hcom := hact _ _ hs
      unfold Node.stepCommitor at hcom
      split at hcom
      · cases hcom
      · next cm bs hr =>
        cases hcom
        dsimp only
        rw [emitted, List.filterMap_append, ← emitted, ← emitted, Turns.emitted_emit]
        refine hrun _ _ _ _ _ _ ih.2 (fun d b hd => ?_) hr
        obtain ⟨-, p, hp, rfl⟩ := hM.stored_source hl hd
        exact ⟨p, (List.mem_filter.1 hp).1, rfl⟩
    | rest _ _ _ _ hcom _ hos => exact hkeep hcom hos

theorem source (hM : Conducts E docG spawn step second M) (hrun : Draws run)
    (hact : ∀ c r, M.act self c .commitor = some r → c.stepCommitor run = some r)
    (hl : M.Local G self h) : (∀ b ∈ h.st.commitor.blocks, Arrived h.received b) ∧
      ∀ b ∈ emitted h.outs, Arrived h.received b := by
  refine hM.log_induction hact (R := fun l c log => (∀ b ∈ c.blocks, Arrived l b) ∧
    ∀ b ∈ log, Arrived l b) ⟨?_, ?_⟩ (fun l m c log ih => ?_) (fun l c log b c' ih hb hc => ?_)
    (fun l st c log c' bs ih hst hr => ?_) hl
  · exact fun _ hb => absurd hb List.not_mem_nil
  · exact fun _ hb => absurd hb List.not_mem_nil
  · have hsub := List.subset_append_left l [m]
    exact ⟨fun b hb => (ih.1 b hb).mono hsub, fun b hb => (ih.2 b hb).mono hsub⟩
  · refine ⟨fun x hx => ?_, ih.2⟩
    rcases Commitor.commit_blocks hc hx with hx | rfl
    · exact ih.1 x hx
    · exact hb
  · have hsrc : ∀ b, b ∈ c'.blocks ∨ b ∈ bs → Arrived l b := by
      intro b hb
      rcases hrun _ _ _ _ hr b hb with hb | ⟨d, hd⟩
      · exact ih.1 b hb
      · exact hst d b hd
    refine ⟨fun b hb => hsrc b (Or.inl hb), fun b hb => ?_⟩
    exact (List.mem_append.1 hb).elim (ih.2 b) fun hb => hsrc b (Or.inr hb)

end Conducts

section Protocols

variable {E : Env D} {self : NodeID}

theorem Acting.stepCommitor {V : Variant} {P : Goroutines D J} {c c' : Node D J}
    {os : List (NodeOut D)} (h : Acting E self V P c .commitor c' os) :
    c.stepCommitor (V.run E) = some (c', os) := by
  cases h with
  | commitor hrun => simp [Node.stepCommitor, hrun]

theorem Core.step_of_commitor {c : Node D (SpbJob D)} {r : Moved D (SpbJob D)}
    (h : (machine E).act self c .commitor = some r) : c.stepCommitor (Commitor.run E) = some r :=
  ((branches E).act self c _ r h).stepCommitor

theorem BigCore.step_of_commitor {c : BigNode D} {r : BigMoved D}
    (h : (machine E).act self c .commitor = some r) : c.stepCommitor (Commitor.run E) = some r :=
  ((branches E).act self c _ r h).stepCommitor

theorem DAGBigCore.step_of_commitor {c : BigNode D} {r : BigMoved D}
    (h : (machine E).act self c .commitor = some r) :
    c.stepCommitor (DAGCommitor.run E) = some r :=
  ((branches E).act self c _ r h).stepCommitor

end Protocols

end S2Pac
