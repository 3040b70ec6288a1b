import S2Pac.BigSPB.Instance
import S2Pac.Traffic

/-!
# Counting the messages of an instance of the big protocols

Where the messages of an instance come from (`Sent`, `Held`), and how often they are sent. A vote is
counted once although the buffers of the votes are replayed without being emptied, because a buffer is
replayed once; an instance makes one certificate of a height.
-/

set_option linter.unusedSectionVars false

namespace S2Pac

open Lib

variable {D : Type} [DecidableEq D]

namespace BigSPB

variable (E : Env D) (self : NodeID) (V : Rules D)

/-! ## Where things come from -/

/-- The message that a task works on was received, and the task runs on the instance of it. -/
def Handed (l : List (Msg D)) (k : Key) : BigJob D → Prop
  | .propose p => .propose p ∈ l ∧ k = (p.view, p.author)
  | .replay p => .propose p ∈ l ∧ k = (p.view, p.author)
  | .vote v => .vote v ∈ l ∧ k = (v.view, v.proposer)
  | .count v => .vote v ∈ l ∧ k = (v.view, v.proposer) ∧ v.height ≤ HEIGHT_2
  | .quorum v => .vote v ∈ l ∧ k = (v.view, v.proposer) ∧ v.height ≤ HEIGHT_2
  | .newPropose v => .vote v ∈ l ∧ k = (v.view, v.proposer) ∧ v.height = HEIGHT_1 ∧ k.2 = self
  | .speedVote sv => .speedVote sv ∈ l ∧ k = V.speedKey sv
  | _ => True

/-- What an instance holds comes from messages that were received. -/
structure Held (l : List (Msg D)) (k : Key) (s : SPB D) : Prop where
  unHandlePropose : ∀ p ∈ s.unHandlePropose,
    .propose p ∈ l ∧ k = (p.view, p.author) ∧ p.height = HEIGHT_2
  unHandleVote : ∀ height, ∀ v ∈ s.unHandleVote height,
    .vote v ∈ l ∧ k = (v.view, v.proposer) ∧ v.height = height
  unHandleSpeedVote : ∀ sv ∈ s.unHandleSpeedVote, .speedVote sv ∈ l ∧ k = V.speedKey sv
  first : s.preQc = none ∧ s.blockHash HEIGHT_1 = E.zero ∨ ∃ p, .propose p ∈ l ∧
    k = (p.view, p.author) ∧ p.height = HEIGHT_1 ∧ s.preQc = p.b.qc ∧
    s.blockHash HEIGHT_1 = p.b.hash E
  second : s.blockHash HEIGHT_2 = E.zero ∨ ∃ p, .propose p ∈ l ∧
    k = (p.view, p.author) ∧ p.height = HEIGHT_2 ∧ s.blockHash HEIGHT_2 = p.b.hash E
  blockQcs : ∀ height q, s.blockQcs height = some q → height ≤ HEIGHT_2 ∧ ∃ v, .vote v ∈ l ∧
    k = (v.view, v.proposer) ∧ v.height = height ∧ q = v.makeQC k

/-- What the goroutines send. -/
inductive Sent (l : List (Msg D)) : NodeOut D → Prop
  | other {o : NodeOut D} : Other V o → Sent l o
  | vote {p : ProposeMsg D} : .propose p ∈ l →
      Sent l (.bcast (.vote (newVoteMsg E self p.b)))
  | propose {v : VoteMsg D} (batch : Batch) : .vote v ∈ l → v.height = HEIGHT_1 →
      v.proposer = self → Sent l (.bcast (.propose (newProposeMsg E self
        ⟨self, v.view, HEIGHT_2, batch, some (v.makeQC (v.view, v.proposer)), []⟩)))
  | speedVote {v : VoteMsg D} : .vote v ∈ l → v.height = HEIGHT_2 →
      Sent l (.bcast (.speedVote (newSpeedVoteMsg E self (v.makeQC (v.view, v.proposer)))))

variable {E self V}

theorem Handed.mono {l : List (Msg D)} {k : Key} {j : BigJob D} (m : Msg D)
    (h : Handed self V l k j) : Handed self V (l ++ [m]) k j := by
  cases j with
  | callBack => trivial
  | replaySpeed => trivial
  | speedCount => trivial
  | speedCert => trivial
  | _ => exact ⟨List.mem_append_left _ h.1, h.2⟩

theorem Held.mono {l : List (Msg D)} {k : Key} {s : SPB D} (m : Msg D) (h : Held E V l k s) :
    Held E V (l ++ [m]) k s where
  unHandlePropose p hp := (h.unHandlePropose p hp).imp_left (List.mem_append_left _)
  unHandleVote height v hv := (h.unHandleVote height v hv).imp_left (List.mem_append_left _)
  unHandleSpeedVote sv hs := (h.unHandleSpeedVote sv hs).imp_left (List.mem_append_left _)
  first := h.first.imp_right fun ⟨p, hp, hr⟩ => ⟨p, List.mem_append_left _ hp, hr⟩
  second := h.second.imp_right fun ⟨p, hp, hr⟩ => ⟨p, List.mem_append_left _ hp, hr⟩
  blockQcs height q hq :=
    let ⟨hle, v, hv, hr⟩ := h.blockQcs height q hq; ⟨hle, v, List.mem_append_left _ hv, hr⟩

theorem Sent.mono {l : List (Msg D)} {o : NodeOut D} (m : Msg D) (h : Sent E self V l o) :
    Sent E self V (l ++ [m]) o := by
  cases h with
  | other h => exact Sent.other h
  | vote h => exact Sent.vote (List.mem_append_left _ h)
  | propose batch h hh hp => exact Sent.propose batch (List.mem_append_left _ h) hh hp
  | speedVote h hh => exact Sent.speedVote (List.mem_append_left _ h) hh

theorem held_new (k : Key) : Held E V ([] : List (Msg D)) k (SPB.new E) :=
  ⟨by simp [SPB.new], by simp [SPB.new], by simp [SPB.new], Or.inl ⟨rfl, rfl⟩, Or.inl rfl,
    by simp [SPB.new]⟩

theorem Handed.replay {l : List (Msg D)} {k : Key} {p : ProposeMsg D}
    (h : Handed self V l k (.propose p)) : ∀ j ∈ [BigJob.replay p], Handed self V l k j := by
  intro j hj
  rw [List.mem_singleton.1 hj]
  exact h

theorem Held.certify {l : List (Msg D)} {k : Key} {s : SPB D} {v : VoteMsg D} (h : Held E V l k s)
    (hj : Handed self V l k (.quorum v)) : Held E V l k
      { s with blockQcs := Function.update s.blockQcs v.height (some (v.makeQC k)) } where
  unHandlePropose := h.unHandlePropose
  unHandleVote := h.unHandleVote
  unHandleSpeedVote := h.unHandleSpeedVote
  first := h.first
  second := h.second
  blockQcs height q hq := by
    dsimp only at hq
    by_cases hh : height = v.height
    · subst hh
      rw [Function.update_self] at hq
      exact ⟨hj.2.2, v, hj.1, hj.2.1, rfl, (Option.some.inj hq).symm⟩
    · rw [Function.update_of_ne hh] at hq
      exact h.blockQcs height q hq

theorem jobStep_sourced {l : List (Msg D)} {k : Key} {s s' : SPB D} {j : BigJob D}
    {js : List (BigJob D)} {os : List (NodeOut D)} (hj : Handed self V l k j) (hs : Held E V l k s)
    (h : JobStep E self V k s j s' js os) :
    (∀ j' ∈ js, Handed self V l k j') ∧ Held E V l k s' ∧ ∀ o ∈ os, Sent E self V l o := by
  cases h with
  | crash => exact ⟨by simp, hs, by simp⟩
  | proposeFirst p hp =>
    have hne : HEIGHT_2 ≠ HEIGHT_1 := by decide
    refine ⟨hj.replay, ⟨hs.unHandlePropose, hs.unHandleVote, hs.unHandleSpeedVote,
      Or.inr ⟨p, hj.1, hj.2, hp, rfl, by simp⟩, ?_, hs.blockQcs⟩, by simp⟩
    simpa [Function.update_of_ne hne] using hs.second
  | proposeWait p hp hok =>
    refine ⟨by simp, ⟨?_, hs.unHandleVote, hs.unHandleSpeedVote, hs.first, hs.second, hs.blockQcs⟩,
      by simp⟩
    intro p' hp'
    rcases List.mem_append.1 hp' with hp' | hp'
    · exact hs.unHandlePropose p' hp'
    · rw [List.mem_singleton.1 hp']
      exact ⟨hj.1, hj.2, hp⟩
  | proposeSecond p hp hok =>
    have hne : HEIGHT_1 ≠ HEIGHT_2 := by decide
    refine ⟨hj.replay, ⟨hs.unHandlePropose, hs.unHandleVote, hs.unHandleSpeedVote, ?_,
      Or.inr ⟨p, hj.1, hj.2, hp, by simp⟩, hs.blockQcs⟩, by simp⟩
    simpa [Function.update_of_ne hne] using hs.first
  | proposeOther p h₁ h₂ => exact ⟨hj.replay, hs, by simp⟩
  | replay p =>
    refine ⟨fun j' hj' => ?_, hs, fun o ho => ?_⟩
    · rcases mem_waiting hj' with ⟨-, p', hp', rfl⟩ | ⟨-, v, hv, rfl⟩
      · exact ⟨(hs.unHandlePropose p' hp').1, (hs.unHandlePropose p' hp').2.1⟩
      · exact ⟨(hs.unHandleVote _ v hv).1, (hs.unHandleVote _ v hv).2.1⟩
    · rw [List.mem_singleton.1 ho]
      exact Sent.vote hj.1
  | voteWait v hv hne =>
    refine ⟨by simp, ⟨hs.unHandlePropose, ?_, hs.unHandleSpeedVote, hs.first, hs.second,
      hs.blockQcs⟩, by simp⟩
    intro height v' hv'
    dsimp only at hv'
    by_cases hh : height = v.height
    · subst hh
      rw [Function.update_self] at hv'
      rcases List.mem_append.1 hv' with hv' | hv'
      · exact hs.unHandleVote _ v' hv'
      · rw [List.mem_singleton.1 hv']
        exact ⟨hj.1, hj.2, rfl⟩
    · rw [Function.update_of_ne hh] at hv'
      exact hs.unHandleVote _ v' hv'
  | vote v hv heq =>
    refine ⟨fun j' hj' => ?_, hs, by simp⟩
    rw [List.mem_singleton.1 hj']
    exact ⟨hj.1, hj.2, hv⟩
  | count v =>
    refine ⟨fun j' hj' => ?_, ⟨hs.unHandlePropose, hs.unHandleVote, hs.unHandleSpeedVote, hs.first,
      hs.second, hs.blockQcs⟩, by simp⟩
    split at hj'
    · rw [List.mem_singleton.1 hj']
      exact hj
    · exact absurd hj' List.not_mem_nil
  | quorumFirst v hv =>
    refine ⟨fun j' hj' => ?_, hs.certify hj, by simp⟩
    rcases V.next_cases self k v j' hj' with rfl | ⟨rfl, hk⟩
    · trivial
    · exact ⟨hj.1, hj.2.1, hv, hk⟩
  | quorumSecond v hv =>
    refine ⟨fun j' hj' => ?_, hs.certify hj, fun o ho => ?_⟩
    · rw [List.mem_singleton.1 hj']
      trivial
    · rw [List.mem_singleton.1 ho, hj.2.1]
      exact Sent.speedVote hj.1 hv
  | quorumOther v h₁ h₂ => exact ⟨by simp, hs.certify hj, by simp⟩
  | newPropose v batch =>
    obtain ⟨hm, hk, hh, hself⟩ := hj
    refine ⟨by simp, hs, fun o ho => ?_⟩
    rw [List.mem_singleton.1 ho, hk]
    rw [hk] at hself
    exact Sent.propose batch hm hh hself
  | callBack => exact ⟨by simp, hs, by simp⟩
  | replaySpeed =>
    refine ⟨fun j' hj' => ?_, hs, by simp⟩
    obtain ⟨sv, hsv, rfl⟩ := List.mem_map.1 hj'
    exact hs.unHandleSpeedVote sv hsv
  | speedDrop sv hd => exact ⟨by simp, hs, by simp⟩
  | speedWait sv hp hv hn =>
    refine ⟨by simp, ⟨hs.unHandlePropose, hs.unHandleVote, ?_, hs.first, hs.second, hs.blockQcs⟩,
      by simp⟩
    intro sv' hsv'
    rcases List.mem_append.1 hsv' with hsv' | hsv'
    · exact hs.unHandleSpeedVote sv' hsv'
    · rw [List.mem_singleton.1 hsv']
      exact hj
  | speedVote sv hp hv hn => exact ⟨by simp [Handed], hs, by simp⟩
  | speedCount =>
    refine ⟨fun j' hj' => ?_, ⟨hs.unHandlePropose, hs.unHandleVote, hs.unHandleSpeedVote, hs.first,
      hs.second, hs.blockQcs⟩, by simp⟩
    split at hj'
    · rw [List.mem_singleton.1 hj']
      trivial
    · exact absurd hj' List.not_mem_nil
  | speedCert =>
    exact ⟨by simp, ⟨hs.unHandlePropose, hs.unHandleVote, hs.unHandleSpeedVote, hs.first, hs.second,
      hs.blockQcs⟩, by simp⟩

theorem handed_spawn {l : List (Msg D)} {m : Msg D} {t : Key × BigJob D} (ht : t ∈ spawn V m) :
    Handed self V (l ++ [m]) t.1 t.2 := by
  have hm : m ∈ l ++ [m] := List.mem_append_right _ (List.mem_singleton_self _)
  cases m with
  | propose p => rw [List.mem_singleton.1 ht]; exact ⟨hm, rfl⟩
  | vote v => rw [List.mem_singleton.1 ht]; exact ⟨hm, rfl⟩
  | speedVote sv => rw [List.mem_singleton.1 ht]; exact ⟨hm, rfl⟩
  | _ => exact absurd ht List.not_mem_nil

/-- **Provenance in the big protocols.** -/
theorem run_sourced {x : Pool Key (SPB D) (BigJob D) (Msg D) (NodeOut D)}
    (hx : (code E self V).Run x) :
    (∀ t ∈ x.tasks, Handed self V x.received t.1 t.2) ∧ (∀ k, Held E V x.received k (x.inst k)) ∧
      ∀ o ∈ x.outs, Sent E self V x.received o :=
  hx.sourced (R := fun _ => True) (fun _ _ _ => trivial) (T := Handed self V)
    (B := Held E V) (O := Sent E self V) (fun _ m _ _ h => h.mono m) (fun _ m _ _ h => h.mono m)
    (fun _ m _ h => h.mono m) held_new (fun _ _ _ _ ht => handed_spawn ht) (fun _ _ h => Sent.other h)
    (fun _ _ _ _ _ _ _ _ hj hs h => jobStep_sourced hj hs h) trivial

/-! ## How often a node votes -/

/-- The task is on its way to a vote at a height. -/
@[simp] def toVote (height : ℕ) : BigJob D → Bool
  | .propose p => decide (p.height = height)
  | .replay p => decide (p.height = height)
  | _ => false

theorem countP_waiting {s : SPB D} {height : ℕ} {Q : BigJob D → Bool}
    (hp : height = HEIGHT_1 → ∀ p ∈ s.unHandlePropose, Q (.propose p) = false)
    (hv : ∀ v ∈ s.unHandleVote height, Q (.vote v) = false) : (waiting s height).countP Q = 0 := by
  refine List.countP_eq_zero.2 fun j hj => ?_
  rcases mem_waiting hj with ⟨hh, p, hp', rfl⟩ | ⟨-, v, hv', rfl⟩
  · simp [hp hh p hp']
  · simp [hv v hv']

theorem countP_next {Q : BigJob D → Bool} (hc : Q .callBack = false)
    (hp : ∀ v, Q (.newPropose v) = false) (k : Key) (v : VoteMsg D) :
    (V.next self k v).countP Q = 0 := by
  refine List.countP_eq_zero.2 fun j hj => ?_
  rcases V.next_cases self k v j hj with rfl | ⟨rfl, -⟩
  · simp [hc]
  · simp [hp]

theorem carries_of_other {P : Msg D → Bool} (hP : ∀ m, P m = true → (∃ v, m = .vote v) ∨
    ∃ sv, m = .speedVote sv) (o : NodeOut D) (ho : Other V o) : o.carries P = false := by
  rw [Bool.eq_false_iff]
  intro hc
  obtain ⟨m, hm, hPm⟩ := Out.carries_iff.1 hc
  unfold Other at ho
  rw [hm] at ho
  rcases hP m hPm with ⟨v, rfl⟩ | ⟨sv, rfl⟩ <;> exact ho

theorem isVote_other {k : Key} {height : ℕ} (o : NodeOut D) (ho : Other V o) :
    o.carries (Msg.isVote k height) = false :=
  carries_of_other (fun m hm => by cases m <;> simp_all) o ho

theorem isSpeedVote_other {k : Key} (o : NodeOut D) (ho : Other V o) :
    o.carries (Msg.isSpeedVote k) = false :=
  carries_of_other (fun m hm => by cases m <;> simp_all) o ho

theorem countP_isVote_other {k : Key} {height : ℕ} {os : List (NodeOut D)}
    (h : ∀ o ∈ os, Other V o) : os.countP (Out.carries (Msg.isVote k height)) = 0 :=
  List.countP_eq_zero.2 fun o ho => by simp [isVote_other o (h o ho)]

theorem countP_isVote_replay {l : List (Msg D)} (hl : AllProper l) {k k' : Key} {p : ProposeMsg D}
    (hj : Handed self V l k' (.replay p)) (height : ℕ) :
    [(Out.bcast (Msg.vote (newVoteMsg E self p.b)) : NodeOut D)].countP
      (Out.carries (Msg.isVote k height)) = if k' = k ∧ p.height = height then 1 else 0 := by
  rw [List.countP_singleton, Out.carries_bcast, isVote_newVoteMsg (hl _ hj.1), ← hj.2]
  simp

theorem countP_isVote_le {l : List (Msg D)} (hl : AllProper l) {k k' : Key} {s s' : SPB D}
    {j : BigJob D} {js : List (BigJob D)} {os : List (NodeOut D)} (hj : Handed self V l k' j)
    (h : JobStep E self V k' s j s' js os) (height : ℕ) :
    os.countP (Out.carries (Msg.isVote k height)) ≤
      if k' = k ∧ toVote height j = true then 1 else 0 := by
  cases h with
  | replay p =>
    rw [countP_isVote_replay hl hj]
    simp
  | _ => simp

section Counters

variable {k : Key} {x : Pool Key (SPB D) (BigJob D) (Msg D) (NodeOut D)}

/-- A node votes for height 1 at most as often as it has been sent a proposal of height 1. -/
theorem votes_first (hx : (code E self V).Run x) (hr : AllProper x.received) :
    pending x.tasks k (toVote HEIGHT_1) +
      x.outs.countP (Out.carries (Msg.isVote k HEIGHT_1)) ≤
      x.received.countP (Msg.isPropose k HEIGHT_1) := by
  have h := hx.account AllProper.init k (W := fun _ _ => 0) (K := fun _ => 0)
    (Q := toVote HEIGHT_1) (O := Out.carries (Msg.isVote k HEIGHT_1))
    (P := Msg.isPropose k HEIGHT_1) rfl ?_ isVote_other (fun _ _ _ _ => Nat.le_refl _) ?_ ?_ hr
  · simpa using h
  · intro l m _
    cases m <;> simp [code, spawn, pending]
  · intro x hx hr j s' js os hj hstep
    obtain ⟨hT, hB, -⟩ := run_sourced hx
    have ho := countP_isVote_le hr (hT _ hj) hstep HEIGHT_1 (k := k)
    cases hstep with
    | replay p =>
      rw [countP_waiting (fun _ p hp => by simp [((hB k).unHandlePropose p hp).2.2]) (by simp)]
      simpa using ho
    | quorumFirst v hv =>
      rw [countP_next rfl fun _ => rfl]
      simp
    | _ => simp_all
  · intro x hx hr k' j s' js os hk hj hstep
    have ho := countP_isVote_le hr ((run_sourced hx).1 _ hj) hstep HEIGHT_1 (k := k)
    simpa [hk] using ho

/-- A node that has been sent one proposal of height 1 votes for height 2 at most as often as it has
been sent a proposal of height 2. A buffered proposal counts until the buffer has been replayed, which
is when the vote for height 1 goes out. -/
theorem votes_second (hx : (code E self V).Run x) (hr : AllProper x.received)
    (h₁ : x.received.countP (Msg.isPropose k HEIGHT_1) ≤ 1) :
    pending x.tasks k (toVote HEIGHT_2) +
      x.outs.countP (Out.carries (Msg.isVote k HEIGHT_2)) ≤
      x.received.countP (Msg.isPropose k HEIGHT_2) := by
  have h := hx.account (R := fun l => AllProper l ∧ l.countP (Msg.isPropose k HEIGHT_1) ≤ 1) ?_ k
    (W := fun outs s => if outs.countP (Out.carries (Msg.isVote k HEIGHT_1)) = 0 then
      s.unHandlePropose.length else 0) (K := fun _ => 0)
    (Q := toVote HEIGHT_2) (O := Out.carries (Msg.isVote k HEIGHT_2))
    (P := Msg.isPropose k HEIGHT_2) rfl ?_ isVote_other ?_ ?_ ?_ ⟨hr, h₁⟩
  · omega
  · rintro l m ⟨hl, hc⟩
    rw [List.countP_append] at hc
    exact ⟨hl.init, by omega⟩
  · intro l m _
    cases m <;> simp [code, spawn, pending]
  · intro outs os s hos
    rw [List.countP_append, countP_isVote_other hos, Nat.add_zero]
  · rintro x hx ⟨hr, h₁⟩ j s' js os hj hstep
    have hfirst := votes_first (k := k) hx hr
    have hpos : toVote HEIGHT_1 j = true → 0 < pending x.tasks k (toVote HEIGHT_1) :=
      pending_pos hj
    have hj := (run_sourced hx).1 _ hj
    rw [List.countP_append]
    generalize x.outs.countP (Out.carries (Msg.isVote k HEIGHT_1)) = sent at hfirst ⊢
    cases hstep with
    | proposeWait p hp =>
      by_cases hs : sent = 0 <;> simp [hs, hp]
    | replay p =>
      rw [countP_isVote_replay hr hj, countP_isVote_replay hr hj]
      by_cases hp : p.height = HEIGHT_1
      · -- the buffer is replayed, for the first and only time
        have hsent : sent = 0 := by have := hpos (by simp [hp]); omega
        have hlen := ((x.inst k).unHandlePropose.map BigJob.propose).countP_le_length
          (p := toVote HEIGHT_2)
        simpa [hp, hsent, waiting, List.countP_append, Function.comp_def] using hlen
      · rw [countP_waiting (fun h => absurd h hp) (by simp)]
        simp [hp]
    | quorumFirst v hv =>
      rw [countP_next rfl fun _ => rfl]
      simp
    | _ => simp_all
  · rintro x hx ⟨hr, -⟩ k' j s' js os hk hj hstep
    have ho₁ := countP_isVote_le hr ((run_sourced hx).1 _ hj) hstep HEIGHT_1 (k := k)
    have ho₂ := countP_isVote_le hr ((run_sourced hx).1 _ hj) hstep HEIGHT_2 (k := k)
    simp only [hk, false_and, if_false, Nat.le_zero] at ho₁ ho₂
    rw [List.countP_append, ho₁, ho₂, Nat.add_zero]
    exact ⟨rfl, le_rfl⟩

theorem votes_le_one (hx : (code E self V).Run x) (hr : AllProper x.received)
    (hone : ∀ height, x.received.countP (Msg.isPropose k height) ≤ 1) {height : ℕ}
    (hh : height ≤ HEIGHT_2) : pending x.tasks k (toVote height) +
      x.outs.countP (Out.carries (Msg.isVote k height)) ≤ 1 := by
  rcases height_cases hh with rfl | rfl
  · exact (votes_first hx hr).trans (hone _)
  · exact (votes_second hx hr (hone _)).trans (hone _)

/-! ## What the counters count -/

/-- The task is a vote at a height that has still to be counted. -/
@[simp] def toCount (height : ℕ) : BigJob D → Bool
  | .vote v => decide (v.height = height)
  | .count v => decide (v.height = height)
  | _ => false

theorem countP_waiting_votes (s : SPB D) (height : ℕ) :
    (waiting s height).countP (toCount height) ≤ (s.unHandleVote height).length := by
  have hlen := ((s.unHandleVote height).map BigJob.vote).countP_le_length (p := toCount height)
  rw [List.length_map] at hlen
  unfold waiting
  split
  · next h =>
    subst h
    simpa [List.countP_append, Function.comp_def] using hlen
  · split
    · next h =>
      subst h
      exact hlen
    · exact Nat.zero_le _

/-- The votes that an instance has counted have been received. A buffered vote counts until the buffer
has been replayed, which is when the node's own vote goes out. -/
theorem voteNums_le (hx : (code E self V).Run x) (hr : AllProper x.received)
    (hone : ∀ height, x.received.countP (Msg.isPropose k height) ≤ 1) {height : ℕ}
    (hh : height ≤ HEIGHT_2) :
    (x.inst k).voteNums height ≤ x.received.countP (Msg.isVote k height) := by
  have h := hx.account (R := fun l => AllProper l ∧
      ∀ height, l.countP (Msg.isPropose k height) ≤ 1) ?_ k
    (W := fun outs s => s.voteNums height +
      if outs.countP (Out.carries (Msg.isVote k height)) = 0 then (s.unHandleVote height).length
      else 0) (K := fun _ => 0) (Q := toCount height) (O := fun _ => false)
    (P := Msg.isVote k height) rfl ?_ (fun _ _ => rfl) ?_ ?_ ?_ ⟨hr, hone⟩
  · omega
  · rintro l m ⟨hl, hc⟩
    refine ⟨hl.init, fun height => ?_⟩
    have := hc height
    rw [List.countP_append] at this
    omega
  · intro l m _
    cases m <;> simp [code, spawn, pending]
  · intro outs os s hos
    rw [List.countP_append, countP_isVote_other hos, Nat.add_zero]
  · rintro x hx ⟨hr, hone⟩ j s' js os hj hstep
    have hvote := votes_le_one hx hr hone hh
    have hpos : toVote height j = true → 0 < pending x.tasks k (toVote height) := pending_pos hj
    have hB := (run_sourced hx).2.1 k
    have hj := (run_sourced hx).1 _ hj
    rw [List.countP_append]
    generalize x.outs.countP (Out.carries (Msg.isVote k height)) = sent at hvote ⊢
    cases hstep with
    | voteWait v hv hne =>
      by_cases hvh : v.height = height
      · subst hvh
        by_cases hs : sent = 0 <;> simp [hs, Nat.add_assoc]
      · simp [hvh, Function.update_of_ne (Ne.symm hvh)]
    | count v =>
      by_cases hvh : v.height = height
      · subst hvh
        simp
        omega
      · simp [hvh, Function.update_of_ne (Ne.symm hvh)]
    | replay p =>
      rw [countP_isVote_replay hr hj]
      by_cases hp : p.height = height
      · -- the buffer is replayed, for the first and only time
        have hsent : sent = 0 := by have := hpos (by simp [hp]); omega
        have hlen := countP_waiting_votes (x.inst k) height
        simpa [hp, hsent] using hlen
      · have hw : (waiting (x.inst k) p.height).countP (toCount height) = 0 :=
          countP_waiting (fun _ _ _ => rfl) fun v hv => by
            simp [(hB.unHandleVote _ v hv).2.2, hp]
        simp [hp, hw]
    | quorumFirst v hv =>
      rw [countP_next rfl fun _ => rfl]
      simp
    | _ => simp
  · rintro x hx ⟨hr, -⟩ k' j s' js os hk hj hstep
    have ho := countP_isVote_le hr ((run_sourced hx).1 _ hj) hstep height (k := k)
    simp only [hk, false_and, if_false, Nat.le_zero] at ho
    rw [List.countP_append, ho, Nat.add_zero]
    exact ⟨by simp, le_rfl⟩

/-- The task makes a certificate of a height. -/
@[simp] def toCertify (height : ℕ) : BigJob D → Bool
  | .quorum v => decide (v.height = height)
  | _ => false

/-- An instance makes at most one certificate of a height, and only when it has counted
`HightThreshold()` votes. -/
theorem certify_once (hx : (code E self V).Run x) (height : ℕ) :
    ((x.inst k).blockQcs height).isSome.toNat + pending x.tasks k (toCertify height) ≤
      if E.hightThreshold ≤ (x.inst k).voteNums height then 1 else 0 := by
  have h := hx.account (R := fun _ => True) (fun _ _ _ => trivial) k
    (W := fun _ s => (s.blockQcs height).isSome.toNat)
    (K := fun s => if E.hightThreshold ≤ s.voteNums height then 1 else 0)
    (Q := toCertify height) (O := fun _ => false) (P := fun _ => false)
    rfl ?_ (fun _ _ => rfl) (fun _ _ _ _ => Nat.le_refl _) ?_
    (fun _ _ _ _ _ _ _ _ _ _ _ => ⟨by simp, le_rfl⟩) trivial
  · simpa using h
  · intro l m _
    cases m <;> simp [code, spawn, pending]
  · intro x hx _ j s' js os hj hstep
    have hqc : ∀ v : VoteMsg D, (Function.update (x.inst k).blockQcs v.height
        (some (v.makeQC k)) height).isSome.toNat ≤ ((x.inst k).blockQcs height).isSome.toNat +
        if toCertify height (.quorum v : BigJob D) then 1 else 0 := by
      intro v
      by_cases hh : v.height = height
      · subst hh
        simp
      · simp [hh, Function.update_of_ne (Ne.symm hh)]
    cases hstep with
    | count v =>
      by_cases hh : v.height = height
      · subst hh
        have hc := crossing E.hightThreshold ((x.inst k).voteNums v.height)
        simp only [Function.update_self]
        rw [← hc]
        simp [Nat.add_assoc]
      · simp [hh, Function.update_of_ne (Ne.symm hh)]
    | replay p =>
      rw [countP_waiting (fun _ _ _ => rfl) fun _ _ => rfl]
      simp
    | quorumFirst v hv =>
      rw [countP_next rfl fun _ => rfl]
      simpa using hqc v
    | quorumSecond v hv => simpa using hqc v
    | quorumOther v h₁ h₂ => simpa using hqc v
    | _ => simp

/-- The task is on its way to a height-2 proposal. -/
@[simp] def toPropose : BigJob D → Bool
  | .quorum v => decide (v.height = HEIGHT_1)
  | .newPropose _ => true
  | _ => false

theorem countP_isPropose_le {l : List (Msg D)} {k' : Key} {s s' : SPB D} {j : BigJob D}
    {js : List (BigJob D)} {os : List (NodeOut D)} (hj : Handed self V l k' j)
    (h : JobStep E self V k' s j s' js os) (view : ℤ) :
    os.countP (Out.carries (Msg.isPropose (view, self) HEIGHT_2)) ≤
      if k' = (view, self) ∧ toPropose j = true then 1 else 0 := by
  cases h with
  | newPropose v batch =>
    obtain ⟨-, rfl, -, hself⟩ := hj
    have hself : v.proposer = self := hself
    by_cases hv : v.view = view <;> simp [newProposeMsg, hv, hself]
  | _ => simp

/-- Where the main loop makes no height-2 proposal, a node makes at most one in a view, and only when
it has counted `HightThreshold()` votes for its height-1 block. -/
theorem propose_once (hV : ¬ V.proposes HEIGHT_2) (hx : (code E self V).Run x) (view : ℤ) :
    pending x.tasks (view, self) toPropose +
      x.outs.countP (Out.carries (Msg.isPropose (view, self) HEIGHT_2)) ≤
      if E.hightThreshold ≤ (x.inst (view, self)).voteNums HEIGHT_1 then 1 else 0 := by
  have h := hx.account (R := fun _ => True) (fun _ _ _ => trivial) (view, self)
    (W := fun _ _ => 0)
    (K := fun s => if E.hightThreshold ≤ s.voteNums HEIGHT_1 then 1 else 0)
    (Q := toPropose) (O := Out.carries (Msg.isPropose (view, self) HEIGHT_2)) (P := fun _ => false)
    rfl ?_ ?_ (fun _ _ _ _ => Nat.le_refl _) ?_ ?_ trivial
  · simpa using h
  · intro l m _
    cases m <;> simp [code, spawn, pending]
  · intro o ho
    rw [Bool.eq_false_iff]
    intro hc
    obtain ⟨m, hm, hP⟩ := Out.carries_iff.1 hc
    change Other V o at ho
    unfold Other at ho
    rw [hm] at ho
    cases m with
    | propose p =>
      have hp : p.height = HEIGHT_2 := (of_decide_eq_true hP).2
      exact hV (hp ▸ ho)
    | _ => simp at hP
  · intro x hx _ j s' js os hj hstep
    have ho := countP_isPropose_le ((run_sourced hx).1 _ hj) hstep view
    cases hstep with
    | count v =>
      by_cases hh : v.height = HEIGHT_1
      · have hc := crossing E.hightThreshold ((x.inst (view, self)).voteNums HEIGHT_1)
        simp only [hh, Function.update_self]
        rw [← hc]
        simp [hh]
      · simp [hh, Function.update_of_ne (Ne.symm hh)]
    | replay p =>
      rw [countP_waiting (fun _ _ _ => rfl) fun _ _ => rfl]
      simp
    | quorumFirst v hv =>
      have hlen := (V.next self (view, self) v).countP_le_length (p := toPropose)
      have := V.next_length self (view, self) v
      simp only [toPropose, hv, decide_true, if_true, List.countP_nil]
      omega
    | newPropose v batch => simpa using ho
    | _ => simp
  · intro x hx _ k' j s' js os hk hj hstep
    have ho := countP_isPropose_le ((run_sourced hx).1 _ hj) hstep view
    simp only [hk, false_and, if_false, Nat.le_zero] at ho
    exact ⟨ho, le_rfl⟩

/-! ## Speed votes -/

theorem countP_isSpeedVote_le {l : List (Msg D)} {k' : Key} {s s' : SPB D} {j : BigJob D}
    {js : List (BigJob D)} {os : List (NodeOut D)} (hj : Handed self V l k' j)
    (h : JobStep E self V k' s j s' js os) :
    os.countP (Out.carries (Msg.isSpeedVote k)) ≤
      if k' = k ∧ toCertify HEIGHT_2 j = true then 1 else 0 := by
  cases h with
  | quorumSecond v hv =>
    obtain ⟨-, rfl, -⟩ := hj
    simp [newSpeedVoteMsg, VoteMsg.makeQC, hv]
  | _ => simp

theorem speedVote_le_one (hx : (code E self V).Run x) :
    x.outs.countP (Out.carries (Msg.isSpeedVote k)) ≤ 1 := by
  have h := hx.account (R := fun _ => True) (fun _ _ _ => trivial) k (W := fun _ _ => 0)
    (K := fun s => if E.hightThreshold ≤ s.voteNums HEIGHT_2 then 1 else 0)
    (Q := toCertify HEIGHT_2) (O := Out.carries (Msg.isSpeedVote k)) (P := fun _ => false)
    rfl ?_ isSpeedVote_other (fun _ _ _ _ => Nat.le_refl _) ?_ ?_ trivial
  · simp only [List.countP_false, Function.const_apply] at h
    split at h <;> omega
  · intro l m _
    cases m <;> simp [code, spawn, pending]
  · intro x hx _ j s' js os hj hstep
    have ho := countP_isSpeedVote_le (k := k) ((run_sourced hx).1 _ hj) hstep
    cases hstep with
    | count v =>
      by_cases hh : v.height = HEIGHT_2
      · have hc := crossing E.hightThreshold ((x.inst k).voteNums HEIGHT_2)
        simp only [hh, Function.update_self]
        rw [← hc]
        simp [hh]
      · simp [hh, Function.update_of_ne (Ne.symm hh)]
    | replay p =>
      rw [countP_waiting (fun _ _ _ => rfl) fun _ _ => rfl]
      simp
    | quorumFirst v hv =>
      rw [countP_next rfl fun _ => rfl]
      simp
    | quorumSecond v hv => simpa [hv] using ho
    | _ => simp
  · intro x hx _ k' j s' js os hk hj hstep
    have ho := countP_isSpeedVote_le (k := k) ((run_sourced hx).1 _ hj) hstep
    simp only [hk, false_and, if_false, Nat.le_zero] at ho
    exact ⟨ho, le_rfl⟩

theorem JobStep.blockQcs_ne_none {s s' : SPB D} {j : BigJob D} {js : List (BigJob D)}
    {os : List (NodeOut D)} (h : JobStep E self V k s j s' js os) {height : ℕ}
    (hs : s.blockQcs height ≠ none) : s'.blockQcs height ≠ none := by
  have hqc : ∀ v : VoteMsg D,
      Function.update s.blockQcs v.height (some (v.makeQC k)) height ≠ none := by
    intro v
    by_cases hh : height = v.height
    · subst hh
      simp
    · rwa [Function.update_of_ne hh]
  cases h with
  | quorumFirst v hv => exact hqc v
  | quorumSecond v hv => exact hqc v
  | quorumOther v h₁ h₂ => exact hqc v
  | _ => exact hs

theorem JobStep.certifies {s s' : SPB D} {j : BigJob D} {js : List (BigJob D)}
    {os : List (NodeOut D)} (h : JobStep E self V k s j s' js os) {height : ℕ}
    (hn : s.blockQcs height = none) (hs : s'.blockQcs height ≠ none) :
    toCertify height j = true := by
  have hupd : ∀ (v : VoteMsg D) q, Function.update s.blockQcs v.height q height ≠ none →
      v.height = height := by
    intro v q h
    by_contra hne
    rw [Function.update_of_ne (Ne.symm hne)] at h
    exact h hn
  cases h with
  | quorumFirst v _ => exact decide_eq_true (hupd v _ hs)
  | quorumSecond v _ => exact decide_eq_true (hupd v _ hs)
  | quorumOther v _ _ => exact decide_eq_true (hupd v _ hs)
  | _ => exact absurd hn hs

/-- The buffered speed votes are replayed, and a speed vote is sent, once there is a height-2
certificate. -/
theorem certified (hx : (code E self V).Run x)
    (h : (k, BigJob.replaySpeed) ∈ x.tasks ∨
      ∃ o ∈ x.outs, o.carries (Msg.isSpeedVote k) = true) :
    (x.inst k).blockQcs HEIGHT_2 ≠ none := by
  refine hx.witnessed (R := fun _ => True) (fun _ _ _ => trivial) k
    (G := fun s => s.blockQcs HEIGHT_2 ≠ none) (Q := fun j => j = .replaySpeed)
    (O := fun o => o.carries (Msg.isSpeedVote k) = true) ?_ ?_
    (fun _ _ _ _ _ _ _ _ hstep hs => JobStep.blockQcs_ne_none hstep hs) ?_ ?_ trivial
    (h.imp_left fun h => ⟨_, h, rfl⟩)
  · rintro l m j - hj rfl
    cases m <;> simp [code, spawn] at hj
  · intro o ho
    rw [isSpeedVote_other o ho]
    exact Bool.false_ne_true
  · intro x hx _ j s' js os hj hstep hnew
    cases hstep with
    | quorumSecond v hv => exact Or.inl (by simp [hv])
    | quorumFirst v hv =>
      rcases hnew with ⟨j', hj', rfl⟩ | ⟨o, ho, -⟩
      · rcases V.next_cases self k v _ hj' with h | ⟨h, -⟩ <;> cases h
      · exact absurd ho List.not_mem_nil
    | replay p =>
      rcases hnew with ⟨j', hj', rfl⟩ | ⟨o, ho, hc⟩
      · rcases mem_waiting hj' with ⟨-, p, -, h⟩ | ⟨-, v, -, h⟩ <;> cases h
      · rw [List.mem_singleton.1 ho] at hc
        simp at hc
    | newPropose v batch => simp at hnew
    | _ => simp at hnew
  · intro x hx _ k' j s' js os hk hj hstep o ho hc
    have hle := countP_isSpeedVote_le (k := k) ((run_sourced hx).1 _ hj) hstep
    have hpos := List.countP_pos_iff.2 ⟨o, ho, hc⟩
    simp only [hk, false_and, if_false] at hle
    omega

/-- The task replays the buffered speed votes. -/
@[simp] def toReplaySpeed : BigJob D → Bool
  | .replaySpeed => true
  | _ => false

/-- The task is a speed vote for the instance that has still to be counted. -/
@[simp] def toSpeedCount (k : Key) : BigJob D → Bool
  | .speedVote sv => decide ((sv.view, sv.proposer) = k)
  | .speedCount => true
  | _ => false

/-- A speed vote for instance `k` that is handed to it. -/
@[simp] def isSpeedVoteAt (V : Rules D) (k : Key) : Msg D → Bool
  | .speedVote sv => decide ((sv.view, sv.proposer) = k ∧ V.speedKey sv = k)
  | _ => false

theorem certified_of_pending (hx : (code E self V).Run x)
    (hpos : 0 < pending x.tasks k toReplaySpeed) : ((x.inst k).blockQcs HEIGHT_2).isSome := by
  obtain ⟨j, hj, hr⟩ := exists_of_pending_pos hpos
  have hj : (k, BigJob.replaySpeed) ∈ x.tasks := by cases j <;> simp_all
  exact Option.isSome_iff_ne_none.2 (certified hx (Or.inl hj))

/-- A quorum at height 2 is completed once: there was no certificate yet, so that no replay is
pending. -/
theorem fresh_of_quorum (hx : (code E self V).Run x) {v : VoteMsg D}
    (hj : (k, BigJob.quorum v) ∈ x.tasks) (hv : v.height = HEIGHT_2) :
    ((x.inst k).blockQcs HEIGHT_2).isSome = false ∧ pending x.tasks k toReplaySpeed = 0 := by
  have hnone : ((x.inst k).blockQcs HEIGHT_2).isSome = false := by
    have honce := certify_once (k := k) hx HEIGHT_2
    have hpos : 0 < pending x.tasks k (toCertify HEIGHT_2) := pending_pos hj (by simp [hv])
    rw [Bool.eq_false_iff]
    intro hs
    rw [hs, Bool.toNat_true] at honce
    split at honce <;> omega
  refine ⟨hnone, ?_⟩
  by_contra hne
  rw [certified_of_pending hx (Nat.pos_of_ne_zero hne)] at hnone
  cases hnone

/-- The speed votes that an instance has counted have been received. A buffered one counts while there
is no height-2 certificate, and then until the buffer has been replayed. -/
theorem speedVoteNums_le (hx : (code E self V).Run x) :
    (x.inst k).speedVoteNums ≤ x.received.countP (isSpeedVoteAt V k) := by
  have h := hx.account_marked (R := fun _ => True) (fun _ _ _ => trivial) k (M := toReplaySpeed)
    (W := fun _ n s => s.speedVoteNums + if (s.blockQcs HEIGHT_2).isSome then
      n * s.unHandleSpeedVote.length else s.unHandleSpeedVote.length) (K := fun _ => 0)
    (Q := toSpeedCount k) (O := fun _ => false) (P := isSpeedVoteAt V k) rfl ?_ ?_ (fun _ _ => rfl)
    (fun _ _ _ _ _ => Nat.le_refl _) ?_
    (fun _ _ _ _ _ _ _ _ _ _ _ => ⟨by simp, fun _ => le_rfl⟩) trivial
  · omega
  · intro m
    cases m <;> simp [code, spawn, pending]
  · intro l m _
    cases m with
    | speedVote sv =>
      by_cases hk : V.speedKey sv = k <;> simp [code, spawn, pending, hk]
    | _ => simp [code, spawn, pending]
  · intro x hx _ j s' js os n hj hstep hn
    cases hstep with
    | crash =>
      have hmul := Nat.mul_le_mul_right (x.inst k).unHandleSpeedVote.length
        (Nat.le_add_right n (if toReplaySpeed j then 1 else 0))
      simp only [List.countP_nil, Nat.add_zero]
      refine (Nat.add_le_add_left ?_ _).trans (Nat.le_add_right _ _)
      split
      · exact hmul
      · exact le_rfl
    | replay p =>
      rw [countP_waiting (fun _ _ _ => rfl) fun _ _ => rfl,
        countP_waiting (fun _ _ _ => rfl) fun _ _ => rfl]
      simp
    | quorumFirst v hv =>
      rw [countP_next rfl fun _ => rfl, countP_next rfl fun _ => rfl]
      simp [hv]
    | quorumSecond v hv =>
      obtain ⟨hnone, hzero⟩ := fresh_of_quorum hx hj hv
      have hn0 : n = 0 := by omega
      simp [hv, hn0, hnone]
    | quorumOther v h₁ h₂ => simp [Function.update_of_ne (Ne.symm h₂)]
    | replaySpeed =>
      have hs : ((x.inst k).blockQcs HEIGHT_2).isSome :=
        certified_of_pending hx (by rw [hn]; simp)
      have hlen := ((x.inst k).unHandleSpeedVote.map BigJob.speedVote).countP_le_length
        (p := toSpeedCount k)
      have hmark : ((x.inst k).unHandleSpeedVote.map BigJob.speedVote).countP toReplaySpeed = 0 := by
        simp [List.countP_map, Function.comp_def]
      rw [List.length_map] at hlen
      have hmul := Nat.succ_mul n (x.inst k).unHandleSpeedVote.length
      rw [hmark]
      simp only [hs, if_true, toReplaySpeed, List.countP_nil, toSpeedCount, Bool.false_eq_true,
        if_false, Nat.add_zero]
      rw [Nat.succ_eq_add_one] at hmul
      rw [hmul, ← Nat.add_assoc]
      exact Nat.add_le_add_left hlen _
    | speedWait sv hp hv hno => simp [hp, hv, hno, Nat.add_assoc]
    | speedVote sv hp hv hn => simp [hp, hv]
    | speedCount => simp; omega
    | _ => simp

/-- `SpeedCert()` holds only when `HightThreshold()` speed votes have been counted. -/
theorem le_speedVoteNums (hx : (code E self V).Run x) (hs : (x.inst k).speedCert = true) :
    E.hightThreshold ≤ (x.inst k).speedVoteNums := by
  have h := hx.account (R := fun _ => True) (fun _ _ _ => trivial) k
    (W := fun _ s => s.isSpeedCert.toNat)
    (K := fun s => if E.hightThreshold ≤ s.speedVoteNums then 1 else 0)
    (Q := fun j => decide (j = .speedCert)) (O := fun _ => false) (P := fun _ => false)
    rfl ?_ (fun _ _ => rfl) (fun _ _ _ _ => Nat.le_refl _) ?_
    (fun _ _ _ _ _ _ _ _ _ _ _ => ⟨by simp, le_rfl⟩) trivial
  · have hs : (x.inst k).isSpeedCert = true := hs
    by_contra hlt
    simp [hs, hlt] at h
  · intro l m _
    cases m <;> simp [code, spawn, pending]
  · intro x hx _ j s' js os hj hstep
    cases hstep with
    | speedCount =>
      have hc := crossing E.hightThreshold (x.inst k).speedVoteNums
      rw [← hc]
      simp [Nat.add_assoc]
    | replay p =>
      rw [countP_waiting (fun _ _ _ => by simp) fun _ _ => by simp]
      simp
    | quorumFirst v hv =>
      rw [countP_next (by simp) fun _ => by simp]
      simp
    | replaySpeed => simp [List.countP_map, Function.comp_def]
    | _ => simp

theorem recorded_of_voted (hx : (code E self V).Run x) (hr : AllProper x.received)
    (hz : ∀ p, Msg.propose p ∈ x.received → p.b.hash E ≠ E.zero) {height : ℕ}
    (h : ∃ o ∈ x.outs, o.carries (Msg.isVote k height) = true) :
    (x.inst k).blockHash height ≠ E.zero := by
  -- a hash that is recorded over another is that of a block too
  have hset : ∀ {s : SPB D} {p : ProposeMsg D} (height' : ℕ), p.b.hash E ≠ E.zero →
      height' = height ∨ s.blockHash height ≠ E.zero →
      Function.update s.blockHash height' (p.b.hash E) height ≠ E.zero := by
    intro s p height' hp hs
    by_cases hh : height = height'
    · rwa [hh, Function.update_self]
    · rw [Function.update_of_ne hh]
      exact hs.resolve_left (Ne.symm hh)
  refine hx.witnessed (R := fun l => AllProper l ∧ ∀ p, Msg.propose p ∈ l → p.b.hash E ≠ E.zero)
    ?_ k (G := fun s => s.blockHash height ≠ E.zero)
    (Q := fun j => ∃ p, j = .replay p ∧ p.height = height)
    (O := fun o => o.carries (Msg.isVote k height) = true) ?_ ?_ ?_ ?_ ?_ ⟨hr, hz⟩ (Or.inr h)
  · rintro l m ⟨hl, hz⟩
    exact ⟨hl.init, fun p hp => hz p (List.mem_append_left _ hp)⟩
  · rintro l m j - hj ⟨p, rfl, -⟩
    cases m <;> simp [code, spawn] at hj
  · intro o ho
    rw [isVote_other o ho]
    exact Bool.false_ne_true
  · rintro x hx ⟨-, hz⟩ j s' js os hj hstep hs
    cases hstep with
    | proposeFirst p hp => exact hset _ (hz p ((run_sourced hx).1 _ hj).1) (Or.inr hs)
    | proposeSecond p hp hok => exact hset _ (hz p ((run_sourced hx).1 _ hj).1) (Or.inr hs)
    | _ => exact hs
  · rintro x hx ⟨hr, hz⟩ j s' js os hj hstep hnew
    have hj := (run_sourced hx).1 _ hj
    have ho := countP_isVote_le hr hj hstep height (k := k)
    -- what a proposal leaves to be voted for is the proposal itself
    have hreplay : ∀ {p : ProposeMsg D}, (∃ j' ∈ [BigJob.replay p], ∃ p', j' = .replay p' ∧
        p'.height = height) → p.height = height := by
      rintro p ⟨j', hj', p', rfl, hh⟩
      cases List.mem_singleton.1 hj'
      exact hh
    have hnone : ¬ ∃ o ∈ ([] : List (NodeOut D)), o.carries (Msg.isVote k height) = true := by simp
    cases hstep with
    | proposeFirst p hp =>
      exact Or.inl (hset _ (hz p hj.1) (Or.inl (hp.symm.trans (hreplay (hnew.resolve_right hnone)))))
    | proposeSecond p hp hok =>
      exact Or.inl (hset _ (hz p hj.1) (Or.inl (hp.symm.trans (hreplay (hnew.resolve_right hnone)))))
    | proposeOther p h₁ h₂ =>
      have hle := (hr _ hj.1).2.2.2
      rcases height_cases hle with hh | hh
      · exact absurd hh h₁
      · exact absurd hh h₂
    | replay p =>
      by_cases hp : p.height = height
      · exact Or.inr ⟨p, rfl, hp⟩
      · rcases hnew with ⟨j', hj', p', rfl, -⟩ | hnew
        · rcases mem_waiting hj' with ⟨-, p, -, h⟩ | ⟨-, v, -, h⟩ <;> cases h
        · have hpos := List.countP_pos_iff.2 hnew
          simp only [toVote, hp, decide_false, Bool.false_eq_true, and_false, if_false] at ho
          omega
    | quorumFirst v hv =>
      rcases hnew with ⟨j', hj', p', rfl, -⟩ | ⟨o, ho, -⟩
      · rcases V.next_cases self k v _ hj' with h | ⟨h, -⟩ <;> cases h
      · exact absurd ho List.not_mem_nil
    | _ => simp at hnew
  · rintro x hx ⟨hr, -⟩ k' j s' js os hne hj hstep o ho hoo
    have hle := countP_isVote_le hr ((run_sourced hx).1 _ hj) hstep height (k := k)
    have hpos := List.countP_pos_iff.2 ⟨o, ho, hoo⟩
    simp only [hne, false_and, if_false] at hle
    omega

theorem recorded_of_vote (hx : (code E self V).Run x) (hr : AllProper x.received)
    (hz : ∀ p, Msg.propose p ∈ x.received → p.b.hash E ≠ E.zero)
    (h : ∃ o ∈ x.outs, o.carries (Msg.isVote k HEIGHT_2) = true) :
    (x.inst k).blockHash HEIGHT_2 ≠ E.zero :=
  recorded_of_voted hx hr hz h

end Counters

end BigSPB

end S2Pac
