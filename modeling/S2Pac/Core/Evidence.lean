import S2Pac.Core.Agreement

/-!
# What entering a view rests on in the lean protocol

A node enters a view because of a report of the view before. The reporter has tossed the coin of that
view, so that it or a node that told it has collected `HightThreshold()` shares (`Collected`); whoever
sends a share has counted as many `FinVoteMsg`s (`FinStep`), and whoever sends a `FinVoteMsg` has got
as many votes for its height-2 block of the view. That block is preceded by a height-1 block, and so on
down to the first view (`view_evidence`).
-/

set_option linter.unusedSectionVars false

namespace S2Pac

open Lib

variable {D : Type} [DecidableEq D]

/-! ## Shares of the coin -/

/-- The shares that an elector has collected were received, one from each author. -/
structure Collected (l : List (Msg D)) (el : Elector) : Prop where
  received : ∀ view, ∀ e ∈ (el.aggregator view).elects, Msg.elect e ∈ l ∧ e.view = view
  used : ∀ view, ∀ e ∈ (el.aggregator view).elects, e.author ∈ (el.aggregator view).used
  nodup : ∀ view, ((el.aggregator view).elects.map ElectMsg.author).Nodup

theorem Collected.mono {l l' : List (Msg D)} (hll : l <+: l') {el : Elector}
    (h : Collected l el) : Collected l' el where
  received view e he := (h.received view e he).imp_left (hll.subset ·)
  used := h.used
  nodup := h.nodup

theorem Collected.collect {l : List (Msg D)} {el : Elector} {e : ElectMsg} (h : Collected l el)
    (hnew : e.author ∉ (el.aggregator e.view).used) (leaders : ℤ → Option NodeID) :
    Collected (l ++ [.elect e]) ⟨leaders, el.collect e⟩ := by
  have hll : l <+: l ++ [.elect e] := List.prefix_append _ _
  have hcollect : ∀ view, el.collect e view = if view = e.view then
      ⟨(el.aggregator e.view).elects ++ [e], e.author :: (el.aggregator e.view).used⟩
      else el.aggregator view := fun view => by
    rw [Elector.collect, Function.update_apply]
  refine ⟨fun view e' he => ?_, fun view e' he => ?_, fun view => ?_⟩ <;> dsimp only at * <;>
    by_cases hv : view = e.view
  · subst hv
    rw [hcollect, if_pos rfl] at he
    rcases List.mem_append.1 he with he | he
    · exact ((h.mono hll).received _ _ he)
    · rw [List.mem_singleton.1 he]
      exact ⟨by simp, rfl⟩
  · rw [hcollect, if_neg hv] at he
    exact (h.mono hll).received _ _ he
  · subst hv
    rw [hcollect, if_pos rfl] at he ⊢
    rcases List.mem_append.1 he with he | he
    · exact List.mem_cons_of_mem _ (h.used _ _ he)
    · rw [List.mem_singleton.1 he]
      exact List.mem_cons_self
  · rw [hcollect, if_neg hv] at he ⊢
    exact h.used _ _ he
  · subst hv
    rw [hcollect, if_pos rfl]
    dsimp only
    rw [List.map_append, List.nodup_append]
    refine ⟨h.nodup _, List.nodup_singleton _, fun a ha b hb => ?_⟩
    obtain ⟨e', he', rfl⟩ := List.mem_map.1 ha
    rw [List.map_singleton, List.mem_singleton] at hb
    rintro rfl
    exact hnew (hb ▸ h.used _ _ he')
  · rw [hcollect, if_neg hv]
    exact h.nodup _

theorem Collected.add {E : Env D} {l : List (Msg D)} {el el' : Elector} {e : ElectMsg}
    {res : Except ElectErr NodeID} (h : Collected l el) (hadd : el.add E e = some (el', res)) :
    Collected (l ++ [.elect e]) el' := by
  cases Elector.adds_of_add hadd with
  | used _ => exact h.mono (List.prefix_append _ _)
  | failed hnew => exact h.collect hnew _
  | kept hnew => exact h.collect hnew _
  | elected hnew _ _ _ => exact h.collect hnew _

namespace Turns

variable {E : Env D} {flagged : Bool} {J : Type}
  {M : Machine NodeID (Node D J) (Msg D) Act (Event D)}
  {G : Machine.Guard NodeID (Node D J) (Msg D) Act (Event D)} {self : NodeID} {h : NodeHost D J}

theorem eletor_of_turn {c c' : Node D J} {x : Input (Msg D) Act} {os : List (NodeOut D)}
    (ht : Turn E self flagged c x c' os) : c'.eletor = c.eletor ∨
      ∃ e res, x = .recv (.elect e) ∧ c.eletor.add E e = some (c'.eletor, res) := by
  cases ht with
  | aside hk _ _ => exact Or.inl hk.eletor
  | store hk _ => exact Or.inl hk.eletor
  | shares hadd _ => exact Or.inr ⟨_, _, rfl, hadd⟩
  | elected _ hadd _ _ _ => exact Or.inr ⟨_, _, rfl, hadd⟩
  | process hs => exact Or.inl (by cases hs <;> rfl)
  | _ => exact Or.inl rfl

theorem collected (hM : Turns E flagged M) (hl : M.Local G self h) :
    Collected h.received h.st.eletor := by
  refine hM.induction (P := fun h => Collected h.received h.st.eletor) ?_ ?_ hl
  · exact ⟨fun _ _ h => absurd h List.not_mem_nil, fun _ _ h => absurd h List.not_mem_nil,
      fun _ => List.nodup_nil⟩
  · intro h x c' os _ ih ht
    rcases eletor_of_turn ht with he | ⟨e, res, rfl, hadd⟩
    · exact he ▸ ih.mono (List.prefix_append _ _)
    · exact ih.add hadd

/-- The elector has collected the threshold of shares of the view. -/
def Shared (E : Env D) (c : Node D J) (view : ℤ) : Prop :=
  E.hightThreshold ≤ (c.eletor.aggregator view).elects.length

theorem Shared.turn {c c' : Node D J} {x : Input (Msg D) Act} {os : List (NodeOut D)}
    (ht : Turn E self flagged c x c' os) {view : ℤ} (h : Shared E c view) : Shared E c' view := by
  rcases eletor_of_turn ht with he | ⟨e, res, -, hadd⟩
  · unfold Shared
    rw [he]
    exact h
  · exact h.trans (length_le_of_add hadd view)

/-- **A node that tosses a coin has collected the shares, or has been told; a node that tells has
collected them.** -/
theorem shared (hM : Turns E flagged M) (hl : M.Local G self h) :
    (∀ leader view, Tossing h.st leader view →
      Shared E h.st view ∨ ∃ r, Msg.randomCoin r ∈ h.received ∧ r.view = view) ∧
    ∀ o ∈ h.outs, ∀ r, o.msg = some (.randomCoin r) → Shared E h.st r.view := by
  refine hM.induction (P := fun h => (∀ leader view, Tossing h.st leader view →
    Shared E h.st view ∨ ∃ r, Msg.randomCoin r ∈ h.received ∧ r.view = view) ∧
    ∀ o ∈ h.outs, ∀ r, o.msg = some (.randomCoin r) → Shared E h.st r.view) ?_ ?_ hl
  · exact ⟨fun _ _ h => h.elim, fun o ho => absurd ho List.not_mem_nil⟩
  · rintro h x c' os _ ⟨htoss, htell⟩ ht
    refine ⟨fun leader view hc => ?_, fun o ho r hr => ?_⟩
    · rcases ht.tossing hc with hc' | ⟨e, hadd, hne, rfl⟩ | ⟨r, rfl, -, -, rfl⟩
      · rcases htoss _ _ hc' with hs | ⟨r, hr, hv⟩
        · exact Or.inl (Shared.turn ht hs)
        · exact Or.inr ⟨r, List.mem_append_left _ hr, hv⟩
      · exact Or.inl (length_of_add hadd hne).2.ge
      · exact Or.inr ⟨r, by simp, rfl⟩
    · rcases List.mem_append.1 ho with hold | hnew
      · exact Shared.turn ht (htell o hold r hr)
      · -- a coin that is told has just been tossed
        have hann : ∀ {e : ElectMsg} {res : Except ElectErr NodeID} {el : Elector},
            h.st.eletor.add E e = some (el, res) → Announced E self res e.view o →
            E.hightThreshold ≤ (el.aggregator r.view).elects.length := by
          rintro e res el hadd ⟨leader, rfl, hne, rfl⟩
          cases hr
          exact (length_of_add hadd hne).2.ge
        cases ht with
        | aside _ _ ha =>
          exact ((ha o hnew).beside hr).elim
        | shares hadd ha => exact hann hadd (ha o hnew)
        | elected _ hadd _ _ ha => exact hann hadd (ha o hnew)
        | boot _ _ => rw [List.mem_singleton.1 hnew] at hr; cases hr
        | advance _ _ _ _ _ _ => rw [List.mem_singleton.1 hnew] at hr; cases hr
        | report _ => rw [List.mem_singleton.1 hnew] at hr; cases hr
        | commitor _ => obtain ⟨b, -, rfl⟩ := List.mem_map.1 hnew; cases hr
        | process hs =>
          cases hs with
          | handed _ _ => rw [List.mem_singleton.1 hnew] at hr; cases hr
          | _ => exact absurd hnew List.not_mem_nil
        | _ => exact absurd hnew List.not_mem_nil

theorem proposal_of_view (hM : Turns E flagged M) (hl : M.Local G self h) (hpos : 0 < h.st.view) :
    ∃ o ∈ h.outs, ∃ p, o.msg = some (.propose p) ∧ p.view = h.st.view ∧ p.height = HEIGHT_1 := by
  revert hpos
  refine hM.induction (P := fun h => 0 < h.st.view → ∃ o ∈ h.outs, ∃ p,
    o.msg = some (.propose p) ∧ p.view = h.st.view ∧ p.height = HEIGHT_1) ?_ ?_ hl
  · exact fun h => absurd h (lt_irrefl _)
  · intro h x c' os _ ih ht hpos
    have hold : c'.view = h.st.view → ∃ o ∈ h.outs ++ os, ∃ p, o.msg = some (.propose p) ∧
        p.view = c'.view ∧ p.height = HEIGHT_1 := by
      intro he
      obtain ⟨o, ho, p, hp⟩ := ih (he ▸ hpos)
      exact ⟨o, List.mem_append_left _ ho, p, he ▸ hp⟩
    cases ht with
    | aside hk _ _ => exact hold hk.view
    | store hk _ => exact hold hk.view
    | advance batch _ _ _ _ _ =>
      exact ⟨_, List.mem_append_right _ (List.mem_singleton.2 rfl), _, rfl, rfl, rfl⟩
    | process hs => exact hold (by cases hs <;> rfl)
    | _ => exact hold rfl

end Turns

namespace Core

variable {E : Env D} {self : NodeID}

/-! ## `FinVoteMsg`s -/

variable (E self) in
/-- **How a step of node `self` deals with `FinVoteMsg`s and shares**: a `FinVoteMsg` is counted by its
author, and while the count is the threshold the node sends its share. -/
inductive FinStep (c : Node D (SpbJob D)) :
    Input (Msg D) Act → Node D (SpbJob D) → List (NodeOut D) → Prop
  | other {x : Input (Msg D) Act} {c' : Node D (SpbJob D)} {os : List (NodeOut D)} :
      c'.finVoteNums = c.finVoteNums → (∀ o ∈ os, Shareless o) → FinStep c x c' os
  | counted {fv : FinVoteMsg D} {c' : Node D (SpbJob D)} {os : List (NodeOut D)} :
      c'.finVoteNums = Function.update c.finVoteNums fv.view
        ((c.finVoteNums fv.view).insert fv.author) →
      (∀ o ∈ os, o = .bcast (.elect (newElectMsg E self fv.view)) ∧
        E.hightThreshold ≤ (c'.finVoteNums fv.view).length) →
      FinStep c (.recv (.finVote fv)) c' os

theorem finStep_handle {c c' : Node D (SpbJob D)} {m : Msg D} {os : List (NodeOut D)}
    (h : Handling E self .lean (goroutines E) c m c' os) : FinStep E self c (.recv m) c' os := by
  cases h with
  | finVote _ _ =>
    refine FinStep.counted rfl fun o ho => ?_
    dsimp only
    rw [Function.update_self]
    split at ho
    · next hlen => exact ⟨List.mem_singleton.1 ho, hlen.ge⟩
    · exact absurd ho List.not_mem_nil
  | counted hne _ => exact absurd rfl hne
  | tossed _ _ _ _ | elected _ _ _ => exact FinStep.other rfl (Variant.announce_shareless _ _ _ _ _)
  | advance _ _ _ _ =>
    exact FinStep.other rfl (shareless_singleton (by simp [Shareless, Out.msg]))
  | _ => exact FinStep.other rfl shareless_nil

theorem JobStep.shareless {k : Key} {s s' : SPB D} {j : SpbJob D} {js : List (SpbJob D)}
    {os : List (NodeOut D)} (h : JobStep E self k s j s' js os) : ∀ o ∈ os, Shareless o := by
  intro o ho e
  cases h with
  | replay p => rw [List.mem_singleton.1 ho]; exact fun h => nomatch h
  | quorumFirst v batch hv => rw [List.mem_singleton.1 ho]; exact fun h => nomatch h
  | quorumSecond v hv => rw [List.mem_singleton.1 ho]; exact fun h => nomatch h
  | finAccept fv qc ha hv hqc heq => rw [List.mem_singleton.1 ho]; exact fun h => nomatch h
  | _ => exact absurd ho List.not_mem_nil

theorem finStep_act {c : Node D (SpbJob D)} {a : Act} {r : Moved D (SpbJob D)}
    (h : act E self c a = some r) : FinStep E self c (.act a) r.1 r.2 := by
  obtain ⟨hnums, -, hos⟩ := (acting h).uncounted fun _ _ _ _ _ _ hs => hs.shareless
  exact FinStep.other hnums hos

section Local

variable {G : Machine.Guard NodeID (Node D (SpbJob D)) (Msg D) Act (Event D)}
  {h : NodeHost D (SpbJob D)}

/-- What stands behind the shares that node `me` has sent. -/
structure Sharing (E : Env D) (me : NodeID) (h : NodeHost D (SpbJob D)) : Prop where
  /-- The authors counted for a view have each sent a `FinVoteMsg`. -/
  counted : ∀ view, ∀ a ∈ h.st.finVoteNums view, ∃ fv, Msg.finVote fv ∈ h.received ∧
    fv.view = view ∧ fv.author = a
  nodup : ∀ view, (h.st.finVoteNums view).Nodup
  /-- The node's share of a view goes to everybody, after the threshold. -/
  shares : ∀ o ∈ h.outs, ∀ e, o.msg = some (.elect e) → o = .bcast (.elect e) ∧ e.author = me ∧
    E.hightThreshold ≤ (h.st.finVoteNums e.view).length

theorem Sharing.step {x : Input (Msg D) Act} {c' : Node D (SpbJob D)} {os : List (NodeOut D)}
    (hs : Sharing E self h) (hf : FinStep E self h.st x c' os) :
    Sharing E self ⟨c', h.received ++ x.heard, h.outs ++ os⟩ := by
  have hcounted : ∀ view, ∀ a ∈ h.st.finVoteNums view, ∃ fv,
      Msg.finVote fv ∈ h.received ++ x.heard ∧ fv.view = view ∧ fv.author = a := by
    intro view a ha
    obtain ⟨fv, hfv, hrest⟩ := hs.counted view a ha
    exact ⟨fv, List.mem_append_left _ hfv, hrest⟩
  cases hf with
  | other hnums hos =>
    refine ⟨hnums ▸ hcounted, hnums ▸ hs.nodup, fun o ho e hm => ?_⟩
    rcases List.mem_append.1 ho with hold | hnew
    · exact hnums ▸ hs.shares o hold e hm
    · exact absurd hm (hos o hnew e)
  | @counted fv _ _ hnums hos =>
    have hview : ∀ view, c'.finVoteNums view = if view = fv.view then
        (h.st.finVoteNums fv.view).insert fv.author else h.st.finVoteNums view := fun view => by
      rw [hnums, Function.update_apply]
    -- the list of a view only becomes longer
    have hgrow : ∀ view, (h.st.finVoteNums view).length ≤ (c'.finVoteNums view).length := by
      intro view
      rw [hview]
      split
      · next hv => exact hv ▸ (List.suffix_insert _ _).length_le
      · exact le_rfl
    refine ⟨fun view a ha => ?_, fun view => ?_, fun o ho e hm => ?_⟩
    · dsimp only at ha
      rw [hview] at ha
      split at ha
      · next hv =>
        rcases List.mem_insert_iff.1 ha with rfl | ha
        · exact ⟨fv, by simp, hv.symm, rfl⟩
        · exact hv ▸ hcounted _ a ha
      · exact hcounted view a ha
    · dsimp only
      rw [hview]
      split
      · exact (hs.nodup _).insert
      · exact hs.nodup view
    · rcases List.mem_append.1 ho with hold | hnew
      · obtain ⟨ho, ha, hle⟩ := hs.shares o hold e hm
        exact ⟨ho, ha, hle.trans (hgrow _)⟩
      · obtain ⟨rfl, hle⟩ := hos o hnew
        cases hm
        exact ⟨rfl, rfl, hle⟩

theorem sharing (hl : (machine E).Local G self h) : Sharing E self h := by
  induction hl with
  | start =>
    exact ⟨fun _ _ h => absurd h List.not_mem_nil, fun _ => List.nodup_nil,
      fun o ho => absurd ho List.not_mem_nil⟩
  | recv _ _ hs ih => exact ih.step (finStep_handle ((branches E).recv _ _ _ _ hs).2)
  | @act h a s o _ _ hs ih => simpa using ih.step (finStep_act hs)

end Local

/-! ## Evidence -/

/-- Node `j` has broadcast a `FinVoteMsg` of the view, and has been sent votes for its height-2 block of
the view by `HightThreshold()` nodes. -/
def FinVoted (E : Env D) (w : NodeWorld D (SpbJob D)) (j : NodeID) (view : ℤ) : Prop :=
  (∃ fv : FinVoteMsg D, fv.view = view ∧ Out.bcast (.finVote fv) ∈ (w.host j).outs) ∧
  ∃ b, Proposed w j b ∧ b.view = view ∧ b.height = HEIGHT_2 ∧
    ∃ S ⊆ E.members.toFinset, E.hightThreshold ≤ S.card ∧ ∀ i ∈ S, ∃ v : VoteMsg D,
      Msg.vote v ∈ (w.host j).received ∧ v.author = i ∧ v.proposer = j ∧ v.view = view ∧
      v.height = HEIGHT_2 ∧ v.blockHash = b.hash E

/-- **What a view is left with**: `HightThreshold()` nodes have broadcast their shares of the coin, and
as many have broadcast a `FinVoteMsg`, each for its own height-2 block. -/
structure Evidence (E : Env D) (w : NodeWorld D (SpbJob D)) (view : ℤ) : Prop where
  elects : ∃ S ⊆ E.members.toFinset, E.hightThreshold ≤ S.card ∧ ∀ j ∈ S, ∃ e : ElectMsg,
    e.view = view ∧ e.author = j ∧ Out.bcast (.elect e) ∈ (w.host j).outs
  finVotes : ∃ S ⊆ E.members.toFinset, E.hightThreshold ≤ S.card ∧ ∀ j ∈ S, FinVoted E w j view

section World

variable {G : Machine.Guard NodeID (Node D (SpbJob D)) (Msg D) Act (Event D)}
  {w : NodeWorld D (SpbJob D)}

theorem finVoted_of_sent (hw : (machine E).Reach G w) {j : NodeID} (hj : j ∈ E.members)
    {o : NodeOut D} (ho : o ∈ (w.host j).outs) {fv : FinVoteMsg D}
    (hm : o.msg = some (.finVote fv)) : FinVoted E w j fv.view := by
  have hroute := (routed hw hj).2
  cases (run_sourced (Local.pool_run (hw.local j))).2.2 o ho with
  | other hoth => unfold Other at hoth; rw [hm] at hoth; exact hoth.elim
  | vote _ => cases hm
  | propose _ _ _ => cases hm
  | speedVote _ _ => cases hm
  | @finVote v hv hh =>
    cases hm
    have hprop : v.proposer = j := hroute v hv
    have hfollows : ∃ o ∈ (w.host j).outs, o.carries (follows j v.view HEIGHT_2) = true :=
      ⟨_, ho, by simp [newFinVoteMsg]⟩
    have hcount := votes_of_follows (hw.local j) hroute hfollows
    obtain ⟨b, hb, S, hS, hcard, hvotes⟩ := (voting hw).exists_voters (orderly hw) hw hj hv
      (by rw [hprop, hh]; exact hcount)
    rw [hprop, hh] at hb hvotes
    exact ⟨⟨_, rfl, ho⟩, b, hb.proposed, hb.view_eq, hb.height_eq, S, hS, hcard, hvotes⟩

/-- Whoever sends a share of the coin has heard of `HightThreshold()` nodes with the votes. -/
theorem exists_finVoted (hw : (machine E).Reach G w) {j : NodeID} (hj : j ∈ E.members)
    {o : NodeOut D} (ho : o ∈ (w.host j).outs) {e : ElectMsg} (hm : o.msg = some (.elect e)) :
    ∃ S ⊆ E.members.toFinset, E.hightThreshold ≤ S.card ∧ ∀ j ∈ S, FinVoted E w j e.view := by
  have hs := sharing (hw.local j)
  have hsent : ∀ a ∈ (w.host j).st.finVoteNums e.view, a ∈ E.members ∧ FinVoted E w a e.view := by
    intro a ha
    obtain ⟨fv, hfv, hview, rfl⟩ := hs.counted _ a ha
    obtain ⟨k, hk, o', ho', hto⟩ := Machine.Reach.sender hw hj hfv
    have hm' := Out.msg_of_msgTo hto
    obtain rfl : fv.author = k := ((orderly hw).signed k hk o' ho' _ hm').1
    exact ⟨hk, hview ▸ finVoted_of_sent hw hk ho' hm'⟩
  refine ⟨((w.host j).st.finVoteNums e.view).toFinset, fun a ha => ?_, ?_, fun a ha => ?_⟩
  · exact List.mem_toFinset.2 (hsent a (List.mem_toFinset.1 ha)).1
  · rw [List.toFinset_card_of_nodup (hs.nodup _)]
    exact (hs.shares o ho e hm).2.2
  · exact (hsent a (List.mem_toFinset.1 ha)).2

theorem evidence_of_shared (hw : (machine E).Reach G w) {k : NodeID} (hk : k ∈ E.members)
    {h : NodeHost D (SpbJob D)} (hl : (machine E).Local G k h)
    (hpre : h.received <+: (w.host k).received) {view : ℤ} (hs : Turns.Shared E h.st view) :
    Evidence E w view := by
  have hcol := turns.collected hl
  have hsent : ∀ e ∈ (h.st.eletor.aggregator view).elects, e.view = view ∧ e.author ∈ E.members ∧
      Out.bcast (.elect e) ∈ (w.host e.author).outs := by
    intro e he
    obtain ⟨hrec, hv⟩ := hcol.received view e he
    obtain ⟨j, hj, o, ho, hto⟩ := Machine.Reach.sender hw hk (hpre.subset hrec)
    obtain ⟨rfl, rfl, -⟩ := (sharing (hw.local j)).shares o ho e (Out.msg_of_msgTo hto)
    exact ⟨hv, hj, ho⟩
  refine ⟨⟨((h.st.eletor.aggregator view).elects.map ElectMsg.author).toFinset, fun j hj => ?_, ?_,
    fun j hj => ?_⟩, ?_⟩
  · obtain ⟨e, he, rfl⟩ := List.mem_map.1 (List.mem_toFinset.1 hj)
    exact List.mem_toFinset.2 (hsent e he).2.1
  · rw [List.toFinset_card_of_nodup (hcol.nodup view), List.length_map]
    exact hs
  · obtain ⟨e, he, rfl⟩ := List.mem_map.1 (List.mem_toFinset.1 hj)
    exact ⟨e, (hsent e he).1, rfl, (hsent e he).2.2⟩
  · obtain ⟨e, he⟩ := List.exists_mem_of_length_pos (lt_of_lt_of_le (Nat.succ_pos _) hs)
    obtain ⟨hv, hj, ho⟩ := hsent e he
    exact hv ▸ exists_finVoted hw hj ho rfl

/-- A height-1 block of a later view rests on evidence of the view before. -/
theorem evidence_of_proposed (hw : (machine E).Reach G w) {j : NodeID} (hj : j ∈ E.members)
    {b : Block D} (hb : Proposed w j b) (hheight : b.height = HEIGHT_1) {view : ℤ}
    (hview : b.view = view + 1) (hpos : 0 ≤ view) : Evidence E w view := by
  obtain ⟨o, ho, p, hm, rfl⟩ := hb
  obtain ⟨-, -, -, hph, -⟩ := (orderly hw).signed j hj o ho _ hm
  have hfirst := turns.proposed_first (hw.local j) ho hm (hph.trans hheight)
  rcases hfirst.parent with ⟨hz, -⟩ | ⟨r, hr, hrv, -, -⟩
  · have := hfirst.view
    omega
  · obtain rfl : r.view = view := by
      have := hfirst.view
      omega
    obtain ⟨k, hk, o', ho', hto⟩ := Machine.Reach.sender hw hj hr
    -- the reporter was tossing the coin
    obtain ⟨h₀, leader, hl₀, -, hpre, hpc, -, -⟩ :=
      turns.reported (hw.local k) ho' (Out.msg_of_msgTo hto)
    have htoss : Tossing h₀.st leader r.view := by
      unfold Tossing
      rw [hpc]
      exact ⟨rfl, rfl⟩
    rcases (turns.shared hl₀).1 _ _ htoss with hs | ⟨r', hr', hv⟩
    · exact evidence_of_shared hw hk hl₀ hpre hs
    · obtain ⟨k', hk', o'', ho'', hto'⟩ := Machine.Reach.sender hw hk (hpre.subset hr')
      have hs := (turns.shared (hw.local k')).2 o'' ho'' r' (Out.msg_of_msgTo hto')
      exact evidence_of_shared hw hk' (hw.local k') (List.prefix_refl _) (hv ▸ hs)

theorem Evidence.exists_first (hw : (machine E).Reach G w) {view : ℤ} (he : Evidence E w view) :
    ∃ j ∈ E.members, ∃ b, Proposed w j b ∧ b.height = HEIGHT_1 ∧ b.view = view := by
  obtain ⟨S, hS, hcard, hfin⟩ := he.finVotes
  obtain ⟨j, hj⟩ : S.Nonempty := Finset.card_pos.1 (lt_of_lt_of_le (Nat.succ_pos _) hcard)
  obtain ⟨-, b, ⟨o, ho, p, hm, rfl⟩, hview, hheight, -⟩ := hfin j hj
  have hj : j ∈ E.members := List.mem_toFinset.1 (hS hj)
  obtain ⟨-, hpv, hph, -⟩ := ((orderly hw).signed j hj o ho _ hm).2
  -- the height-2 block carries a certificate of it
  obtain ⟨q, hq, hnames⟩ :=
    (linked_step hw hj (linked_received hw hj) ho hm).2 (hph.trans hheight)
  obtain ⟨c, hc, -⟩ := qcs_sound hw hj ho hm (q := q) (by simp [Msg.qcs, hq])
  exact ⟨q.proposer, hc.host, c, hc.proposed, hc.height_eq.trans hnames.height_eq,
    hc.view_eq.trans (hnames.view_eq.trans (hpv.trans hview))⟩

/-- The evidence of a view reaches down to the views before it. -/
theorem evidence_below (hw : (machine E).Reach G w) {view : ℤ} (hpos : 0 ≤ view) (m : ℕ) :
    (∃ j ∈ E.members, ∃ b, Proposed w j b ∧ b.height = HEIGHT_1 ∧ b.view = view + 1 + m) →
      Evidence E w view := by
  induction m with
  | zero =>
    rintro ⟨j, hj, b, hb, hh, hv⟩
    exact evidence_of_proposed hw hj hb hh (by simpa using hv) hpos
  | succ m ih =>
    rintro ⟨j, hj, b, hb, hh, hv⟩
    refine ih (Evidence.exists_first hw ?_)
    refine evidence_of_proposed hw hj hb hh ?_ (by omega)
    push_cast at hv
    omega

end World

end Core

/-- **No view is entered without evidence of the ones before it.** -/
theorem view_evidence {E : Env D} {w : NodeWorld D (SpbJob D)}
    (hw : (Core.machine E).Reach Machine.anyInput w) {i : NodeID} (hi : i ∈ E.members) {view : ℤ}
    (hpos : 0 ≤ view) (hview : view + 1 ≤ (w.host i).st.view) : Core.Evidence E w view := by
  obtain ⟨o, ho, p, hm, hv, hh⟩ := Core.turns.proposal_of_view (hw.local i) (by omega)
  obtain ⟨-, hpv, hph, -⟩ := ((Core.orderly hw).signed i hi o ho _ hm).2
  refine Core.evidence_below hw hpos ((w.host i).st.view - (view + 1)).toNat
    ⟨i, hi, p.b, ⟨o, ho, p, hm, rfl⟩, hph ▸ hh, ?_⟩
  rw [← hpv, hv]
  omega

/-- The world after `LeanRun.fork`, where nodes have gone on to view 1. -/
def LeanRun.forkWorld : NodeWorld ℕ (SpbJob ℕ) :=
  (Core.machine (Env.plain 4 threeThenZero)).play Machine.anyInput
    (Core.machine (Env.plain 4 threeThenZero)).world LeanRun.fork

theorem view_evidence_four : 0 + 1 ≤ (LeanRun.forkWorld.host 0).st.view ∧
    Core.Evidence (Env.plain 4 threeThenZero) LeanRun.forkWorld 0 := by
  have hw : (Core.machine (Env.plain 4 threeThenZero)).Reach Machine.anyInput LeanRun.forkWorld :=
    Machine.play_sound _ LeanRun.fork
  have hview : 0 + 1 ≤ (LeanRun.forkWorld.host 0).st.view := by decide +kernel
  exact ⟨hview, view_evidence hw (by decide) le_rfl hview⟩

end S2Pac
