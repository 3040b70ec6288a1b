import S2Pac.Core.Instance
import S2Pac.Traffic

/-!
# Counting the messages of an instance of the lean protocol

Where the messages of an instance come from (`Sent`, `Held`), and how often they are sent: a node that
has received one proposal of a height votes once at that height, counts each vote once, and so on. The
counters carry no authors and the buffers are replayed without being emptied, so that each of these
bounds is an invariant over every order of the goroutines (`PoolCode.Run.account`).
-/

set_option linter.unusedSectionVars false

namespace S2Pac

open Lib

variable {D : Type} [DecidableEq D]

namespace Core

variable (E : Env D) (self : NodeID)

/-! ## Where things come from -/

/-- The message that a task works on was received, and the task runs on the instance of it. -/
def Handed (l : List (Msg D)) (k : Key) : SpbJob D → Prop
  | .propose p => .propose p ∈ l ∧ k = (p.view, p.author)
  | .replay p => .propose p ∈ l ∧ k = (p.view, p.author)
  | .vote v => .vote v ∈ l ∧ k = (v.view, v.proposer)
  | .quorum v => .vote v ∈ l ∧ k = (v.view, v.proposer) ∧ v.height ≤ HEIGHT_2
  | .finVote fv => .finVote fv ∈ l ∧ k = (fv.view, fv.author)
  | .speedVote sv => .speedVote sv ∈ l ∧ k = (sv.view, sv.proposer)
  | .speedCert => True

/-- What an instance holds comes from messages that were received. -/
structure Held (l : List (Msg D)) (k : Key) (s : SPB D) : Prop where
  unHandlePropose : ∀ p ∈ s.unHandlePropose,
    .propose p ∈ l ∧ k = (p.view, p.author) ∧ p.height = HEIGHT_2
  unHandleFinVote : ∀ fv ∈ s.unHandleFinVote, .finVote fv ∈ l ∧ k = (fv.view, fv.author)
  first : s.preQc = none ∧ s.blockHash HEIGHT_1 = E.zero ∨ ∃ p, .propose p ∈ l ∧
    k = (p.view, p.author) ∧ p.height = HEIGHT_1 ∧ s.preQc = p.b.qc ∧
    s.blockHash HEIGHT_1 = p.b.hash E
  second : s.blockQcs HEIGHT_1 = none ∧ s.blockHash HEIGHT_2 = E.zero ∨ ∃ p qc, .propose p ∈ l ∧
    k = (p.view, p.author) ∧ p.height = HEIGHT_2 ∧ p.b.qc = some qc ∧
    s.blockQcs HEIGHT_1 = some qc ∧ s.blockHash HEIGHT_2 = p.b.hash E
  fin : ∀ qc, s.blockQcs HEIGHT_2 = some qc → (∃ fv, .finVote fv ∈ l ∧ k = (fv.view, fv.author) ∧
    fv.qc = some qc) ∧ (s.blockQcs HEIGHT_1 ≠ none ∨ qc.parentBlockHash = E.zero)
  above : ∀ height, HEIGHT_2 < height → s.blockQcs height = none

/-- What the goroutines send. -/
inductive Sent (l : List (Msg D)) : NodeOut D → Prop
  | other {o : NodeOut D} : Other o → Sent l o
  | vote {p : ProposeMsg D} : .propose p ∈ l →
      Sent l (.to p.author (.vote (newVoteMsg E self p.b)))
  | propose {v : VoteMsg D} (batch : Batch) : .vote v ∈ l → v.height = HEIGHT_1 →
      Sent l (.bcast (.propose (newProposeMsg E self
        ⟨self, v.view, HEIGHT_2, batch, some (v.makeQC (v.view, v.proposer)), []⟩)))
  | finVote {v : VoteMsg D} : .vote v ∈ l → v.height = HEIGHT_2 →
      Sent l (.bcast (.finVote (newFinVoteMsg E self v.view
        (some (v.makeQC (v.view, v.proposer))))))
  | speedVote {fv : FinVoteMsg D} {qc : BlockQC D} : .finVote fv ∈ l → fv.qc = some qc →
      Sent l (.to fv.author (.speedVote (newSpeedVoteMsg E self qc)))

variable {E self}

theorem Handed.mono {l : List (Msg D)} {k : Key} {j : SpbJob D} (m : Msg D) (h : Handed l k j) :
    Handed (l ++ [m]) k j := by
  cases j with
  | speedCert => trivial
  | _ => exact ⟨List.mem_append_left _ h.1, h.2⟩

theorem Held.mono {l : List (Msg D)} {k : Key} {s : SPB D} (m : Msg D) (h : Held E l k s) :
    Held E (l ++ [m]) k s where
  unHandlePropose p hp := ⟨List.mem_append_left _ (h.unHandlePropose p hp).1,
    (h.unHandlePropose p hp).2⟩
  unHandleFinVote fv hf := ⟨List.mem_append_left _ (h.unHandleFinVote fv hf).1,
    (h.unHandleFinVote fv hf).2⟩
  first := h.first.imp_right fun ⟨p, hp, hr⟩ => ⟨p, List.mem_append_left _ hp, hr⟩
  second := h.second.imp_right fun ⟨p, qc, hp, hr⟩ => ⟨p, qc, List.mem_append_left _ hp, hr⟩
  fin qc hqc := by
    obtain ⟨⟨fv, hfv, hr⟩, h'⟩ := h.fin qc hqc
    exact ⟨⟨fv, List.mem_append_left _ hfv, hr⟩, h'⟩
  above := h.above

theorem Sent.mono {l : List (Msg D)} {o : NodeOut D} (m : Msg D) (h : Sent E self l o) :
    Sent E self (l ++ [m]) o := by
  cases h with
  | other h => exact Sent.other h
  | vote h => exact Sent.vote (List.mem_append_left _ h)
  | propose batch h hh => exact Sent.propose batch (List.mem_append_left _ h) hh
  | finVote h hh => exact Sent.finVote (List.mem_append_left _ h) hh
  | speedVote h hh => exact Sent.speedVote (List.mem_append_left _ h) hh

theorem held_new (k : Key) : Held E ([] : List (Msg D)) k (SPB.new E) :=
  ⟨by simp [SPB.new], by simp [SPB.new], Or.inl ⟨rfl, rfl⟩, Or.inl ⟨rfl, rfl⟩, by simp [SPB.new],
    by simp [SPB.new]⟩

theorem Handed.replay {l : List (Msg D)} {k : Key} {p : ProposeMsg D}
    (h : Handed l k (.propose p)) : ∀ j ∈ [SpbJob.replay p], Handed l k j := by
  intro j hj
  rw [List.mem_singleton.1 hj]
  exact h

theorem jobStep_sourced {l : List (Msg D)} {k : Key} {s s' : SPB D} {j : SpbJob D}
    {js : List (SpbJob D)} {os : List (NodeOut D)} (hj : Handed l k j) (hs : Held E l k s)
    (h : JobStep E self k s j s' js os) :
    (∀ j' ∈ js, Handed l k j') ∧ Held E l k s' ∧ ∀ o ∈ os, Sent E self l o := by
  cases h with
  | crash => exact ⟨by simp, hs, by simp⟩
  | proposeFirst p hp =>
    refine ⟨hj.replay, ?_, by simp⟩
    have hne : HEIGHT_2 ≠ HEIGHT_1 := by decide
    refine ⟨hs.unHandlePropose, hs.unHandleFinVote, Or.inr ⟨p, hj.1, hj.2, hp, rfl, by simp⟩, ?_,
      hs.fin, hs.above⟩
    simpa [Function.update_of_ne hne] using hs.second
  | proposeWait p qc hp hqc hne =>
    refine ⟨by simp, ⟨?_, hs.unHandleFinVote, hs.first, hs.second, hs.fin, hs.above⟩, by simp⟩
    intro p' hp'
    rcases List.mem_append.1 hp' with hp' | hp'
    · exact hs.unHandlePropose p' hp'
    · rw [List.mem_singleton.1 hp']
      exact ⟨hj.1, hj.2, hp⟩
  | proposeSecond p qc hp hqc heq =>
    have hne : HEIGHT_1 ≠ HEIGHT_2 := by decide
    have hne' : HEIGHT_2 ≠ HEIGHT_1 := by decide
    refine ⟨hj.replay, ⟨hs.unHandlePropose, hs.unHandleFinVote, ?_,
      Or.inr ⟨p, qc, hj.1, hj.2, hp, hqc, by simp, by simp⟩, ?_, fun height hh => ?_⟩, by simp⟩
    · simpa [Function.update_of_ne hne] using hs.first
    · intro qc' hqc'
      dsimp only at hqc'
      rw [Function.update_of_ne hne'] at hqc'
      exact ⟨(hs.fin qc' hqc').1, Or.inl (by simp)⟩
    · exact (Function.update_of_ne (Nat.zero_lt_of_lt hh).ne' _ _).trans (hs.above height hh)
  | proposeOther p h₁ h₂ => exact ⟨hj.replay, hs, by simp⟩
  | replay p =>
    refine ⟨?_, hs, ?_⟩
    · intro j' hj'
      rcases mem_waiting hj' with ⟨-, p', hp', rfl⟩ | ⟨-, fv, hfv, rfl⟩
      · exact ⟨(hs.unHandlePropose p' hp').1, (hs.unHandlePropose p' hp').2.1⟩
      · exact hs.unHandleFinVote fv hfv
    · intro o ho
      rw [List.mem_singleton.1 ho, hj.2]
      exact Sent.vote hj.1
  | vote v hv =>
    refine ⟨?_, ⟨hs.unHandlePropose, hs.unHandleFinVote, hs.first, hs.second, hs.fin, hs.above⟩, by simp⟩
    intro j' hj'
    split at hj'
    · rw [List.mem_singleton.1 hj']
      exact ⟨hj.1, hj.2, hv⟩
    · exact absurd hj' List.not_mem_nil
  | quorumFirst v batch hv =>
    refine ⟨by simp, hs, fun o ho => ?_⟩
    rw [List.mem_singleton.1 ho, hj.2.1]
    exact Sent.propose batch hj.1 hv
  | quorumSecond v hv =>
    refine ⟨by simp, hs, fun o ho => ?_⟩
    rw [List.mem_singleton.1 ho, hj.2.1]
    have hle := hj.2.2
    exact Sent.finVote hj.1 (by simp only [HEIGHT_1, HEIGHT_2] at *; omega)
  | finDrop fv hd => exact ⟨by simp, hs, by simp⟩
  | finWait fv qc ha hv hqc hne =>
    refine ⟨by simp, ⟨hs.unHandlePropose, ?_, hs.first, hs.second, hs.fin, hs.above⟩, by simp⟩
    intro fv' hfv'
    rcases List.mem_append.1 hfv' with hfv' | hfv'
    · exact hs.unHandleFinVote fv' hfv'
    · rw [List.mem_singleton.1 hfv']
      exact hj
  | finAccept fv qc ha hv hqc heq =>
    have hne : HEIGHT_1 ≠ HEIGHT_2 := by decide
    refine ⟨by simp, ⟨hs.unHandlePropose, hs.unHandleFinVote, hs.first, ?_, ?_, fun height hh =>
      (Function.update_of_ne hh.ne' _ _).trans (hs.above height hh)⟩, fun o ho => ?_⟩
    · simpa [Function.update_of_ne hne] using hs.second
    · intro qc' hqc'
      dsimp only at hqc' ⊢
      rw [Function.update_self] at hqc'
      cases hqc'
      refine ⟨⟨fv, hj.1, hj.2, hqc⟩, ?_⟩
      rw [Function.update_of_ne hne]
      rcases hs.second with ⟨-, hz⟩ | ⟨p, q, -, -, -, -, hq, -⟩
      · exact Or.inr (heq.symm.trans hz)
      · exact Or.inl (by simp [hq])
    · rw [List.mem_singleton.1 ho, ← ha]
      exact Sent.speedVote hj.1 hqc
  | speedDrop sv hd => exact ⟨by simp, hs, by simp⟩
  | speedVote sv ha hv =>
    refine ⟨?_, ⟨hs.unHandlePropose, hs.unHandleFinVote, hs.first, hs.second, hs.fin, hs.above⟩, by simp⟩
    intro j' hj'
    split at hj'
    · rw [List.mem_singleton.1 hj']
      trivial
    · exact absurd hj' List.not_mem_nil
  | speedCert =>
    exact ⟨by simp, ⟨hs.unHandlePropose, hs.unHandleFinVote, hs.first, hs.second, hs.fin, hs.above⟩, by simp⟩

theorem handed_spawn {l : List (Msg D)} {m : Msg D} {t : Key × SpbJob D} (ht : t ∈ spawn m) :
    Handed (l ++ [m]) t.1 t.2 := by
  have hm : m ∈ l ++ [m] := List.mem_append_right _ (List.mem_singleton_self _)
  cases m with
  | propose p => rw [List.mem_singleton.1 ht]; exact ⟨hm, rfl⟩
  | vote v => rw [List.mem_singleton.1 ht]; exact ⟨hm, rfl⟩
  | finVote fv => rw [List.mem_singleton.1 ht]; exact ⟨hm, rfl⟩
  | speedVote sv => rw [List.mem_singleton.1 ht]; exact ⟨hm, rfl⟩
  | elect e => exact absurd ht List.not_mem_nil
  | randomCoin r => exact absurd ht List.not_mem_nil
  | report r => exact absurd ht List.not_mem_nil

/-- **Provenance in the lean protocol.** -/
theorem run_sourced {x : Pool Key (SPB D) (SpbJob D) (Msg D) (NodeOut D)}
    (hx : (code E self).Run x) :
    (∀ t ∈ x.tasks, Handed x.received t.1 t.2) ∧ (∀ k, Held E x.received k (x.inst k)) ∧
      ∀ o ∈ x.outs, Sent E self x.received o :=
  hx.sourced (R := fun _ => True) (fun _ _ _ => trivial) (T := Handed) (B := Held E)
    (O := Sent E self) (fun _ m _ _ h => h.mono m) (fun _ m _ _ h => h.mono m)
    (fun _ m _ h => h.mono m) held_new (fun _ _ _ _ ht => handed_spawn ht) (fun _ _ h => Sent.other h)
    (fun _ _ _ _ _ _ _ _ hj hs h => jobStep_sourced hj hs h) trivial

/-! ## How often a node votes -/

/-- The task is on its way to a vote at a height. -/
@[simp] def toVote (height : ℕ) : SpbJob D → Bool
  | .propose p => decide (p.height = height)
  | .replay p => decide (p.height = height)
  | _ => false

theorem isVote_replay {l : List (Msg D)} (hl : AllProper l) {k k' : Key} {p : ProposeMsg D}
    (hj : Handed l k' (.replay p)) (height : ℕ) :
    Msg.isVote k height (.vote (newVoteMsg E self p.b)) = decide (k' = k ∧ p.height = height) := by
  rw [hj.2]
  exact isVote_newVoteMsg (hl _ hj.1) k height

theorem carries_of_other {P : Msg D → Bool} (hP : ∀ m, P m = true → (∃ v, m = .vote v) ∨
    (∃ fv, m = .finVote fv) ∨ ∃ sv, m = .speedVote sv) (o : NodeOut D) (ho : Other o) :
    o.carries P = false := by
  rw [Bool.eq_false_iff]
  intro hc
  obtain ⟨m, hm, hPm⟩ := Out.carries_iff.1 hc
  unfold Other at ho
  rw [hm] at ho
  rcases hP m hPm with ⟨v, rfl⟩ | ⟨fv, rfl⟩ | ⟨sv, rfl⟩ <;> exact ho

theorem countP_isVote_other {k : Key} {height : ℕ} {os : List (NodeOut D)}
    (h : ∀ o ∈ os, Other o) : os.countP (Out.carries (Msg.isVote k height)) = 0 :=
  List.countP_eq_zero.2 fun o ho => by
    rw [carries_of_other (fun m hm => by cases m <;> simp_all) o (h o ho)]
    simp

theorem countP_isVote_replay {l : List (Msg D)} (hl : AllProper l) {k : Key} {p : ProposeMsg D}
    (hj : Handed l k (.replay p)) (height : ℕ) :
    [(Out.to k.2 (Msg.vote (newVoteMsg E self p.b)) : NodeOut D)].countP
      (Out.carries (Msg.isVote k height)) = if p.height = height then 1 else 0 := by
  rw [List.countP_singleton, Out.carries_to, isVote_replay hl hj]
  simp

/-- A step votes only in `replay`, and only for its own instance. -/
theorem countP_isVote_le {l : List (Msg D)} (hl : AllProper l) {k k' : Key} {s s' : SPB D}
    {j : SpbJob D} {js : List (SpbJob D)} {os : List (NodeOut D)} (hj : Handed l k' j)
    (h : JobStep E self k' s j s' js os) (height : ℕ) :
    os.countP (Out.carries (Msg.isVote k height)) ≤
      if k' = k ∧ toVote height j = true then 1 else 0 := by
  cases h with
  | replay p =>
    rw [List.countP_singleton, Out.carries_to, isVote_replay hl hj height]
    simp
  | _ => simp

theorem votes_first (k : Key) {x : Pool Key (SPB D) (SpbJob D) (Msg D) (NodeOut D)}
    (hx : (code E self).Run x) (hr : AllProper x.received) :
    pending x.tasks k (toVote HEIGHT_1) +
      x.outs.countP (Out.carries (Msg.isVote k HEIGHT_1)) ≤
      x.received.countP (Msg.isPropose k HEIGHT_1) := by
  have h := hx.account AllProper.init k (W := fun _ _ => 0) (K := fun _ => 0)
    (Q := toVote HEIGHT_1) (O := Out.carries (Msg.isVote k HEIGHT_1))
    (P := Msg.isPropose k HEIGHT_1) rfl ?_ ?_ (fun _ _ _ _ => Nat.le_refl _) ?_ ?_ hr
  · simpa using h
  · intro l m _
    cases m <;> simp [code, spawn, pending]
  · exact carries_of_other fun m hm => by cases m <;> simp_all
  · intro x hx hr j s' js os hj hstep
    obtain ⟨hT, hB, -⟩ := run_sourced hx
    have ho := countP_isVote_le hr (hT _ hj) hstep HEIGHT_1 (k := k)
    cases hstep with
    | replay p =>
      rw [countP_waiting (fun _ p hp => by simp [((hB k).unHandlePropose p hp).2.2]) fun _ _ _ => rfl]
      simpa using ho
    | _ => simp_all
  · intro x hx hr k' j s' js os hk hj hstep
    have ho := countP_isVote_le hr ((run_sourced hx).1 _ hj) hstep HEIGHT_1 (k := k)
    simpa [hk] using ho

/-- A node that has been sent one proposal of height 1 votes for height 2 at most as often as it has
been sent a proposal of height 2. A buffered proposal counts until the buffer has been replayed, which
is when the vote for height 1 goes out. -/
theorem votes_second (k : Key) {x : Pool Key (SPB D) (SpbJob D) (Msg D) (NodeOut D)}
    (hx : (code E self).Run x) (hr : AllProper x.received)
    (h₁ : x.received.countP (Msg.isPropose k HEIGHT_1) ≤ 1) :
    pending x.tasks k (toVote HEIGHT_2) +
      x.outs.countP (Out.carries (Msg.isVote k HEIGHT_2)) ≤
      x.received.countP (Msg.isPropose k HEIGHT_2) := by
  have h := hx.account (R := fun l => AllProper l ∧ l.countP (Msg.isPropose k HEIGHT_1) ≤ 1) ?_ k
    (W := fun outs s => if outs.countP (Out.carries (Msg.isVote k HEIGHT_1)) = 0 then
      s.unHandlePropose.length else 0) (K := fun _ => 0)
    (Q := toVote HEIGHT_2) (O := Out.carries (Msg.isVote k HEIGHT_2))
    (P := Msg.isPropose k HEIGHT_2) rfl ?_ ?_ ?_ ?_ ?_ ⟨hr, h₁⟩
  · omega
  · rintro l m ⟨hl, hc⟩
    rw [List.countP_append] at hc
    exact ⟨hl.init, by omega⟩
  · intro l m _
    cases m <;> simp [code, spawn, pending]
  · exact carries_of_other fun m hm => by cases m <;> simp_all
  · intro outs os s hos
    rw [List.countP_append, countP_isVote_other hos, Nat.add_zero]
  · rintro x hx ⟨hr, h₁⟩ j s' js os hj hstep
    obtain ⟨hT, hB, -⟩ := run_sourced hx
    have hfirst := votes_first k hx hr
    have hpos : toVote HEIGHT_1 j = true → 0 < pending x.tasks k (toVote HEIGHT_1) :=
      pending_pos hj
    have hj := hT _ hj
    rw [List.countP_append]
    generalize x.outs.countP (Out.carries (Msg.isVote k HEIGHT_1)) = sent at hfirst ⊢
    cases hstep with
    | proposeWait p qc hp =>
      by_cases hs : sent = 0 <;> simp [hs, hp]
    | replay p =>
      rw [countP_isVote_replay hr hj, countP_isVote_replay hr hj]
      by_cases hp : p.height = HEIGHT_1
      · -- the buffer is replayed, for the first and only time
        have hsent : sent = 0 := by have := hpos (by simp [hp]); omega
        have hlen := (waiting (x.inst k) p.height).countP_le_length (p := toVote HEIGHT_2)
        simpa [hp, hsent, waiting] using hlen
      · rw [countP_waiting (fun h => absurd h hp) fun _ _ _ => rfl]
        simp [hp]
    | _ => simp_all
  · rintro x hx ⟨hr, -⟩ k' j s' js os hk hj hstep
    have ho₁ := countP_isVote_le hr ((run_sourced hx).1 _ hj) hstep HEIGHT_1 (k := k)
    have ho₂ := countP_isVote_le hr ((run_sourced hx).1 _ hj) hstep HEIGHT_2 (k := k)
    simp only [hk, false_and, if_false, Nat.le_zero] at ho₁ ho₂
    rw [List.countP_append, ho₁, ho₂, Nat.add_zero]
    exact ⟨rfl, le_rfl⟩

/-! ## What the counters count -/

section Counters

variable {k : Key} {x : Pool Key (SPB D) (SpbJob D) (Msg D) (NodeOut D)}

/-- The task is a vote at a height that has still to be counted. -/
@[simp] def toCount (height : ℕ) : SpbJob D → Bool
  | .vote v => decide (v.height = height)
  | _ => false

theorem voteNums_le (hx : (code E self).Run x) (height : ℕ) :
    (x.inst k).voteNums height ≤ x.received.countP (Msg.isVote k height) := by
  have h := hx.account (R := fun _ => True) (fun _ _ _ => trivial) k
    (W := fun _ s => s.voteNums height) (K := fun _ => 0) (Q := toCount height)
    (O := fun _ => false) (P := Msg.isVote k height) rfl ?_ (fun _ _ => rfl)
    (fun _ _ _ _ => Nat.le_refl _) ?_ (fun _ _ _ _ _ _ _ _ _ _ _ => ⟨by simp, le_rfl⟩) trivial
  · omega
  · intro l m _
    cases m <;> simp [code, spawn, pending]
  · intro x hx _ j s' js os hj hstep
    cases hstep with
    | vote v hv =>
      by_cases hh : v.height = height
      · subst hh
        simp
      · simp [hh, Function.update_of_ne (Ne.symm hh)]
    | replay p =>
      rw [countP_waiting (fun _ _ _ => rfl) fun _ _ _ => rfl]
      simp
    | _ => simp

/-- The task makes a certificate of a height. -/
@[simp] def toCertify (height : ℕ) : SpbJob D → Bool
  | .quorum v => decide (v.height = height)
  | _ => false

/-- What a node sends when it has made a certificate: the height-2 proposal, or the `FinVoteMsg`. -/
@[simp] def follows (self : NodeID) (view : ℤ) (height : ℕ) : Msg D → Bool
  | .propose p => decide (height = HEIGHT_1 ∧ (p.view, p.author) = (view, self) ∧ p.height = HEIGHT_2)
  | .finVote fv => decide (height = HEIGHT_2 ∧ (fv.view, fv.author) = (view, self))
  | _ => false

theorem countP_follows_le {l : List (Msg D)} {k' : Key} {s s' : SPB D} {j : SpbJob D}
    {js : List (SpbJob D)} {os : List (NodeOut D)} (hj : Handed l k' j)
    (h : JobStep E self k' s j s' js os) (view : ℤ) (height : ℕ) :
    os.countP (Out.carries (follows self view height)) ≤
      if k'.1 = view ∧ toCertify height j = true then 1 else 0 := by
  cases h with
  | quorumFirst v batch hv =>
    obtain ⟨-, rfl, -⟩ := hj
    by_cases hh : height = HEIGHT_1 <;> by_cases hw : v.view = view <;>
      simp [newProposeMsg, hv, hh, hw]
  | quorumSecond v hv =>
    obtain ⟨-, rfl, hle⟩ := hj
    have hv : v.height = HEIGHT_2 := by simp only [HEIGHT_1, HEIGHT_2] at *; omega
    by_cases hh : height = HEIGHT_2 <;> by_cases hw : v.view = view <;>
      simp [newFinVoteMsg, hv, hh, hw]
  | _ => simp

/-- A certificate of this height is only made in an instance of the node's own. -/
def Own (self : NodeID) (height : ℕ) (k : Key) (j : SpbJob D) : Prop :=
  toCertify height j = true → k.2 = self

/-- A node that makes certificates of a height only in its own instances makes at most one in a view,
and only when it has counted `HightThreshold()` votes. -/
theorem certify_once_own {height : ℕ} (hx : ((code E self).restrict (Own self height)).Run x)
    (view : ℤ) :
    pending x.tasks (view, self) (toCertify height) +
      x.outs.countP (Out.carries (follows self view height)) ≤
      if E.hightThreshold ≤ (x.inst (view, self)).voteNums height then 1 else 0 := by
  have h := hx.account (R := fun _ => True) (fun _ _ _ => trivial) (view, self)
    (W := fun _ _ => 0)
    (K := fun s => if E.hightThreshold ≤ s.voteNums height then 1 else 0)
    (Q := toCertify height) (O := Out.carries (follows self view height)) (P := fun _ => false)
    rfl ?_ ?_ (fun _ _ _ _ => Nat.le_refl _) ?_ ?_ trivial
  · simpa using h
  · intro l m _
    cases m <;> simp [PoolCode.restrict, code, spawn, pending]
  · intro o ho
    rw [Bool.eq_false_iff]
    intro hc
    obtain ⟨m, hm, hf⟩ := Out.carries_iff.1 hc
    change Other o at ho
    unfold Other at ho
    rw [hm] at ho
    cases m <;> simp_all
  · intro x hx _ j s' js os hj hstep
    obtain ⟨-, hstep⟩ := hstep
    have ho := countP_follows_le ((run_sourced hx.of_restrict).1 _ hj) hstep view height
    cases hstep with
    | vote v hv =>
      by_cases hh : v.height = height
      · subst hh
        have hc := crossing E.hightThreshold ((x.inst (view, self)).voteNums v.height)
        simp only [Function.update_self]
        rw [← hc]
        simp
      · simp [hh, Function.update_of_ne (Ne.symm hh)]
    | replay p =>
      rw [countP_waiting (fun _ _ _ => rfl) fun _ _ _ => rfl]
      simp
    | _ => simp_all
  · intro x hx _ k' j s' js os hne hj hstep
    obtain ⟨hown, hstep⟩ := hstep
    have ho := countP_follows_le ((run_sourced hx.of_restrict).1 _ hj) hstep view height
    rw [if_neg, Nat.le_zero] at ho
    · exact ⟨ho, le_rfl⟩
    · rintro ⟨hview, hq⟩
      exact hne (Prod.ext hview (hown hq))

theorem certify_once (hx : (code E self).Run x)
    (hr : ∀ v, Msg.vote v ∈ x.received → v.proposer = self) (view : ℤ) (height : ℕ) :
    pending x.tasks (view, self) (toCertify height) +
      x.outs.countP (Out.carries (follows self view height)) ≤
      if E.hightThreshold ≤ (x.inst (view, self)).voteNums height then 1 else 0 := by
  refine certify_once_own (hx.restrict
    (R := fun l => ∀ v, Msg.vote v ∈ l → v.proposer = self)
    (fun l m h v hv => h v (List.mem_append_left _ hv)) ?_ hr) view
  intro x hx hr k j hj hq
  have hj := (run_sourced hx).1 _ hj
  cases j with
  | quorum v =>
    obtain ⟨hm, rfl, -⟩ := hj
    exact hr v hm
  | _ => simp at hq

/-- The task is a `FinVoteMsg` that has still to be looked at. -/
@[simp] def toFinVote : SpbJob D → Bool
  | .finVote _ => true
  | _ => false

theorem countP_isSpeedVote_le {l : List (Msg D)} (hl : AllProper l) {k' : Key} {s s' : SPB D}
    {j : SpbJob D} {js : List (SpbJob D)} {os : List (NodeOut D)} (hj : Handed l k' j)
    (h : JobStep E self k' s j s' js os) :
    os.countP (Out.carries (Msg.isSpeedVote k)) ≤
      if k' = k ∧ toFinVote j = true then 1 else 0 := by
  cases h with
  | finAccept fv qc ha hv hqc heq =>
    obtain ⟨hview, hprop⟩ := hl _ hj.1 qc hqc
    obtain ⟨-, rfl⟩ := hj
    simp [newSpeedVoteMsg, hview, hprop]
  | _ => simp

/-- A node that has been sent one proposal of each height sends at most as many speed votes as it has
been sent `FinVoteMsg`s. A buffered one counts until the buffer has been replayed, which is when the
vote for height 2 goes out. -/
theorem speedVotes_le (hx : (code E self).Run x) (hr : AllProper x.received)
    (h₁ : x.received.countP (Msg.isPropose k HEIGHT_1) ≤ 1)
    (h₂ : x.received.countP (Msg.isPropose k HEIGHT_2) ≤ 1) :
    x.outs.countP (Out.carries (Msg.isSpeedVote k)) ≤ x.received.countP (Msg.isFinVote k) := by
  have h := hx.account (R := fun l => AllProper l ∧ l.countP (Msg.isPropose k HEIGHT_1) ≤ 1 ∧
      l.countP (Msg.isPropose k HEIGHT_2) ≤ 1) ?_ k
    (W := fun outs s => if outs.countP (Out.carries (Msg.isVote k HEIGHT_2)) = 0 then
      s.unHandleFinVote.length else 0) (K := fun _ => 0)
    (Q := toFinVote) (O := Out.carries (Msg.isSpeedVote k)) (P := Msg.isFinVote k)
    rfl ?_ ?_ ?_ ?_ ?_ ⟨hr, h₁, h₂⟩
  · omega
  · rintro l m ⟨hl, hc₁, hc₂⟩
    rw [List.countP_append] at hc₁ hc₂
    exact ⟨hl.init, by omega, by omega⟩
  · intro l m _
    cases m <;> simp [code, spawn, pending]
  · exact carries_of_other fun m hm => by cases m <;> simp_all
  · intro outs os s hos
    rw [List.countP_append, countP_isVote_other hos, Nat.add_zero]
  · rintro x hx ⟨hr, h₁, h₂⟩ j s' js os hj hstep
    have hsecond := votes_second k hx hr h₁
    have hpos : toVote HEIGHT_2 j = true → 0 < pending x.tasks k (toVote HEIGHT_2) :=
      pending_pos hj
    have hj := (run_sourced hx).1 _ hj
    have ho := countP_isSpeedVote_le (k := k) hr hj hstep
    rw [List.countP_append]
    generalize x.outs.countP (Out.carries (Msg.isVote k HEIGHT_2)) = sent at hsecond ⊢
    cases hstep with
    | finWait fv qc ha hv hqc hne =>
      by_cases hs : sent = 0 <;> simp [hs]
    | replay p =>
      rw [countP_isVote_replay hr hj]
      by_cases hp : p.height = HEIGHT_2
      · -- the buffer is replayed, for the first and only time
        have hsent : sent = 0 := by have := hpos (by simp [hp]); omega
        have hlen := (waiting (x.inst k) p.height).countP_le_length (p := toFinVote)
        simpa [hp, hsent, waiting] using hlen
      · rw [countP_waiting (fun _ _ _ => rfl) fun h => absurd h hp]
        simp [hp]
    | _ => simp_all
  · rintro x hx ⟨hr, -, -⟩ k' j s' js os hk hj hstep
    have hj := (run_sourced hx).1 _ hj
    have ho₁ := countP_isVote_le hr hj hstep HEIGHT_2 (k := k)
    have ho₂ := countP_isSpeedVote_le (k := k) hr hj hstep
    simp only [hk, false_and, if_false, Nat.le_zero] at ho₁ ho₂
    rw [List.countP_append, ho₁, ho₂, Nat.add_zero]
    exact ⟨rfl, le_rfl⟩

/-- The task is a speed vote that has still to be counted. -/
@[simp] def toSpeedCount : SpbJob D → Bool
  | .speedVote _ => true
  | _ => false

theorem speedVoteNums_le (hx : (code E self).Run x) :
    (x.inst k).speedVoteNums ≤ x.received.countP (Msg.isSpeedVote k) := by
  have h := hx.account (R := fun _ => True) (fun _ _ _ => trivial) k
    (W := fun _ s => s.speedVoteNums) (K := fun _ => 0) (Q := toSpeedCount)
    (O := fun _ => false) (P := Msg.isSpeedVote k) rfl ?_ (fun _ _ => rfl)
    (fun _ _ _ _ => Nat.le_refl _) ?_ (fun _ _ _ _ _ _ _ _ _ _ _ => ⟨by simp, le_rfl⟩) trivial
  · omega
  · intro l m _
    cases m <;> simp [code, spawn, pending]
  · intro x hx _ j s' js os hj hstep
    cases hstep with
    | replay p =>
      rw [countP_waiting (fun _ _ _ => rfl) fun _ _ _ => rfl]
      simp
    | _ => simp

theorem le_speedVoteNums (hx : (code E self).Run x) (hs : (x.inst k).speedCert = true) :
    E.hightThreshold ≤ (x.inst k).speedVoteNums := by
  have h := hx.account (R := fun _ => True) (fun _ _ _ => trivial) k
    (W := fun _ s => s.isSpeedCert.toNat)
    (K := fun s => if E.hightThreshold ≤ s.speedVoteNums then 1 else 0)
    (Q := fun j => decide (j = .speedCert)) (O := fun _ => false) (P := fun _ => false)
    rfl ?_ (fun _ _ => rfl) (fun _ _ _ _ => Nat.le_refl _) ?_
    (fun _ _ _ _ _ _ _ _ _ _ _ => ⟨by simp, le_rfl⟩) trivial
  · have hs : (x.inst k).isSpeedCert = true := hs
    by_contra hlt
    simp [hs, hlt] at h
  · intro l m _
    cases m <;> simp [code, spawn, pending]
  · intro x hx _ j s' js os hj hstep
    cases hstep with
    | speedVote sv ha hv =>
      have hc := crossing E.hightThreshold (x.inst k).speedVoteNums
      rw [← hc]
      simp [Nat.add_assoc]
    | speedCert => simp
    | replay p =>
      rw [countP_waiting (fun _ _ _ => rfl) fun _ _ _ => rfl]
      simp
    | _ => simp

theorem JobStep.blockQcs_ne_none {k : Key} {s s' : SPB D} {j : SpbJob D} {js : List (SpbJob D)}
    {os : List (NodeOut D)} (h : JobStep E self k s j s' js os) {height : ℕ}
    (hs : s.blockQcs height ≠ none) : s'.blockQcs height ≠ none := by
  cases h with
  | proposeSecond p qc hp hqc heq =>
    by_cases hh : height = HEIGHT_1
    · subst hh
      simp
    · simpa [Function.update_of_ne hh] using hs
  | finAccept fv qc ha hv hqc heq =>
    by_cases hh : height = HEIGHT_2
    · subst hh
      simp
    · simpa [Function.update_of_ne hh] using hs
  | _ => exact hs

/-- A node that has voted for height 2 holds the certificate of height 1. -/
theorem certified_of_vote (hx : (code E self).Run x) (hr : AllProper x.received)
    (h : ∃ o ∈ x.outs, o.carries (Msg.isVote k HEIGHT_2) = true) :
    (x.inst k).blockQcs HEIGHT_1 ≠ none := by
  refine hx.witnessed AllProper.init k (G := fun s => s.blockQcs HEIGHT_1 ≠ none)
    (Q := fun j => ∃ p, j = .replay p ∧ p.height = HEIGHT_2)
    (O := fun o => o.carries (Msg.isVote k HEIGHT_2) = true) ?_ ?_
    (fun _ _ _ _ _ _ _ _ hstep hs => JobStep.blockQcs_ne_none hstep hs) ?_ ?_ hr (Or.inr h)
  · rintro l m j - hj ⟨p, rfl, -⟩
    cases m <;> simp [code, spawn] at hj
  · intro o ho
    rw [carries_of_other (fun m hm => by cases m <;> simp_all) o ho]
    exact Bool.false_ne_true
  · intro x hx hr j s' js os hj hstep hnew
    have ho := countP_isVote_le hr ((run_sourced hx).1 _ hj) hstep HEIGHT_2 (k := k)
    cases hstep with
    | proposeFirst p hp => simp_all
    | proposeSecond p qc hp hqc heq => exact Or.inl (by simp)
    | proposeOther p hp₁ hp₂ => simp_all
    | replay p =>
      by_cases hp : p.height = HEIGHT_2
      · exact Or.inr ⟨p, rfl, hp⟩
      · rcases hnew with ⟨j, hj, p', rfl, -⟩ | hnew
        · rcases mem_waiting hj with ⟨-, p, -, hj⟩ | ⟨-, fv, -, hj⟩ <;> cases hj
        · have hpos := List.countP_pos_iff.2 hnew
          simp only [toVote, hp, decide_false, Bool.false_eq_true, and_false, if_false] at ho
          omega
    | vote v hv => simp at hnew
    | speedVote sv ha hv => simp at hnew
    | _ => simp at hnew
  · intro x hx hr k' j s' js os hne hj hstep o ho hoo
    have hle := countP_isVote_le hr ((run_sourced hx).1 _ hj) hstep HEIGHT_2 (k := k)
    have hpos := List.countP_pos_iff.2 ⟨o, ho, hoo⟩
    simp only [hne, false_and, if_false] at hle
    omega

theorem certified_of_speedVote (hx : (code E self).Run x) (hr : AllProper x.received)
    (h : ∃ o ∈ x.outs, o.carries (Msg.isSpeedVote k) = true) :
    (x.inst k).blockQcs HEIGHT_2 ≠ none := by
  refine hx.witnessed AllProper.init k (G := fun s => s.blockQcs HEIGHT_2 ≠ none)
    (Q := fun _ => False) (O := fun o => o.carries (Msg.isSpeedVote k) = true)
    (fun _ _ _ _ _ h => h) ?_
    (fun _ _ _ _ _ _ _ _ hstep hs => JobStep.blockQcs_ne_none hstep hs) ?_ ?_ hr (Or.inr h)
  · intro o ho
    rw [carries_of_other (fun m hm => by cases m <;> simp_all) o ho]
    exact Bool.false_ne_true
  · intro x hx hr j s' js os hj hstep hnew
    cases hstep with
    | finAccept fv qc ha hv hqc heq => exact Or.inl (by simp)
    | _ => simp at hnew
  · intro x hx hr k' j s' js os hne hj hstep o ho hoo
    have hle := countP_isSpeedVote_le (k := k) hr ((run_sourced hx).1 _ hj) hstep
    have hpos := List.countP_pos_iff.2 ⟨o, ho, hoo⟩
    simp only [hne, false_and, if_false] at hle
    omega

end Counters

end Core

end S2Pac
