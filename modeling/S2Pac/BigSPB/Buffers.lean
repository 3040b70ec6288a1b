import S2Pac.BigSPB.Votes
import S2Pac.Lib.Log

/-!
# The buffers of the big protocols

What comes too early waits in three buffers that are never emptied, and goroutines that are started
later take it up again. An instance that is handed its two proposals, votes for them and speed votes,
each once, ends in a state that does not depend on the order in which they come and in which the
goroutines take their steps. The books (`books`) say where a message is: with a goroutine, in a buffer
that has not been replayed, or counted.
-/

set_option linter.unusedSectionVars false

namespace S2Pac

open Lib

variable {D : Type} [DecidableEq D]

namespace BigSPB

/-! ## What an instance is handed -/

/-- The job is one that a handler of the main loop starts with a message. -/
def isMessage : BigJob D → Bool
  | .propose _ => true
  | .vote _ => true
  | .speedVote _ => true
  | _ => false

section Fits

variable (E : Env D) (V : Rules D) (k : Key) (plan : ℕ → ProposeMsg D)

/-- The hash of the block that is proposed at a height. -/
def planned (height : ℕ) : D := (plan height).b.hash E

/-- The height-2 block can be tested, and it passes once the height-1 block is there. -/
def Follows (b : Block D) : Prop :=
  ∀ s : SPB D, V.parentOk s b ≠ none ∧
    (s.blockHash HEIGHT_1 = planned E plan HEIGHT_1 → V.parentOk s b = some true)

/-- The job works on the proposal of a height, on a vote for its block, or on a speed vote for instance
`k`. -/
def Fits : BigJob D → Prop
  | .propose p => p.height ≤ HEIGHT_2 ∧ p = plan p.height ∧
      (p.height = HEIGHT_2 → Follows E V plan p.b)
  | .replay p => p.height ≤ HEIGHT_2 ∧ p = plan p.height ∧
      (p.height = HEIGHT_2 → Follows E V plan p.b)
  | .vote v => v.height ≤ HEIGHT_2 ∧ v.blockHash = planned E plan v.height
  | .count v => v.height ≤ HEIGHT_2 ∧ v.blockHash = planned E plan v.height
  | .quorum v => v.height ≤ HEIGHT_2 ∧ v.blockHash = planned E plan v.height
  | .speedVote sv => sv.proposer = k.2 ∧ sv.view = k.1
  | _ => True

/-- What waits in the buffers fits, and waits in its own one. -/
structure FitBuffers (s : SPB D) : Prop where
  unHandlePropose : ∀ p ∈ s.unHandlePropose,
    Fits E V k plan (.propose p) ∧ p.height = HEIGHT_2
  unHandleVote : ∀ height, ∀ v ∈ s.unHandleVote height,
    Fits E V k plan (.vote v) ∧ v.height = height
  unHandleSpeedVote : ∀ sv ∈ s.unHandleSpeedVote, Fits E V k plan (.speedVote sv)

/-- **What comes in**: messages that fit, and at most one proposal of a height. -/
structure Intake (l : List (BigJob D)) : Prop where
  isMessage : ∀ j ∈ l, isMessage j = true
  fits : ∀ j ∈ l, Fits E V k plan j
  once : ∀ height, l.countP (toVote height) ≤ 1

variable {E V k plan}

theorem Intake.init {l : List (BigJob D)} {j : BigJob D} (h : Intake E V k plan (l ++ [j])) :
    Intake E V k plan l where
  isMessage j hj := h.isMessage j (List.mem_append_left _ hj)
  fits j hj := h.fits j (List.mem_append_left _ hj)
  once height := by
    have := h.once height
    rw [List.countP_append] at this
    omega

theorem Fits.not_panics {s : SPB D} {j : BigJob D} (h : Fits E V k plan j) : ¬ Panics V s j := by
  cases j with
  | propose p =>
    rintro ⟨hp, hnone⟩
    exact (h.2.2 hp s).1 hnone
  | vote v => exact not_lt.2 h.1
  | _ => exact id

theorem fitBuffers_new : FitBuffers E V k plan (SPB.new E) :=
  ⟨by simp [SPB.new], by simp [SPB.new], by simp [SPB.new]⟩

theorem JobStep.fits {self : NodeID} {k' : Key} {s s' : SPB D} {j : BigJob D}
    {js : List (BigJob D)} {os : List (NodeOut D)} (hj : Fits E V k plan j)
    (hs : FitBuffers E V k plan s) (h : JobStep E self V k' s j s' js os) :
    (∀ j' ∈ js, Fits E V k plan j') ∧ FitBuffers E V k plan s' := by
  have hkeep : ∀ {s' : SPB D}, s'.unHandlePropose = s.unHandlePropose →
      s'.unHandleVote = s.unHandleVote → s'.unHandleSpeedVote = s.unHandleSpeedVote →
      FitBuffers E V k plan s' := by
    intro s' hp hv hsv
    exact ⟨hp ▸ hs.unHandlePropose, hv ▸ hs.unHandleVote, hsv ▸ hs.unHandleSpeedVote⟩
  have hone : ∀ j₁ : BigJob D, Fits E V k plan j₁ → ∀ j' ∈ [j₁], Fits E V k plan j' :=
    fun j₁ h j' hj' => List.mem_singleton.1 hj' ▸ h
  cases h with
  | crash _ => exact ⟨by simp, hs⟩
  | proposeFirst p hp => exact ⟨hone _ hj, hkeep rfl rfl rfl⟩
  | proposeWait p hp hok =>
    refine ⟨by simp, ⟨fun p' hp' => ?_, hs.unHandleVote, hs.unHandleSpeedVote⟩⟩
    rcases List.mem_append.1 hp' with hp' | hp'
    · exact hs.unHandlePropose p' hp'
    · rw [List.mem_singleton.1 hp']
      exact ⟨hj, hp⟩
  | proposeSecond p hp hok => exact ⟨hone _ hj, hkeep rfl rfl rfl⟩
  | proposeOther p h₁ h₂ => exact ⟨hone _ hj, hs⟩
  | replay p =>
    refine ⟨fun j' hj' => ?_, hs⟩
    rcases mem_waiting hj' with ⟨-, p', hp', rfl⟩ | ⟨-, v, hv, rfl⟩
    · exact (hs.unHandlePropose p' hp').1
    · exact (hs.unHandleVote _ v hv).1
  | voteWait v hv hne =>
    refine ⟨by simp, ⟨hs.unHandlePropose, fun height v' hv' => ?_, hs.unHandleSpeedVote⟩⟩
    dsimp only at hv'
    by_cases hh : height = v.height
    · subst hh
      rw [Function.update_self] at hv'
      rcases List.mem_append.1 hv' with hv' | hv'
      · exact hs.unHandleVote _ v' hv'
      · rw [List.mem_singleton.1 hv']
        exact ⟨hj, rfl⟩
    · rw [Function.update_of_ne hh] at hv'
      exact hs.unHandleVote _ v' hv'
  | vote v hv heq => exact ⟨hone _ hj, hs⟩
  | count v =>
    refine ⟨fun j' hj' => ?_, hkeep rfl rfl rfl⟩
    split at hj'
    · exact hone (.quorum v) hj j' hj'
    · exact absurd hj' List.not_mem_nil
  | quorumFirst v hv =>
    refine ⟨fun j' hj' => ?_, hkeep rfl rfl rfl⟩
    rcases V.next_cases _ _ _ _ hj' with rfl | ⟨rfl, -⟩ <;> trivial
  | quorumSecond v hv => exact ⟨by simp [Fits], hkeep rfl rfl rfl⟩
  | quorumOther v h₁ h₂ => exact ⟨by simp, hkeep rfl rfl rfl⟩
  | newPropose v batch => exact ⟨by simp, hs⟩
  | callBack => exact ⟨by simp, hs⟩
  | replaySpeed =>
    refine ⟨fun j' hj' => ?_, hs⟩
    obtain ⟨sv, hsv, rfl⟩ := List.mem_map.1 hj'
    exact hs.unHandleSpeedVote sv hsv
  | speedDrop sv _ => exact ⟨by simp, hs⟩
  | speedWait sv hp hv hn =>
    refine ⟨by simp, ⟨hs.unHandlePropose, hs.unHandleVote, fun sv' hsv' => ?_⟩⟩
    rcases List.mem_append.1 hsv' with hsv' | hsv'
    · exact hs.unHandleSpeedVote sv' hsv'
    · rw [List.mem_singleton.1 hsv']
      exact hj
  | speedVote sv hp hv hn => exact ⟨by simp [Fits], hs⟩
  | speedCount =>
    refine ⟨fun j' hj' => ?_, hkeep rfl rfl rfl⟩
    split at hj'
    · exact hone .speedCert trivial j' hj'
    · exact absurd hj' List.not_mem_nil
  | speedCert => exact ⟨by simp, hkeep rfl rfl rfl⟩

end Fits

/-! ## The books -/

/-- The goroutines of instance `k`, with a log of the jobs that were done and of what each sent. -/
def serving (E : Env D) (self : NodeID) (V : Rules D) (k : Key) :
    PoolCode Key (SPB D) (BigJob D) (BigJob D) (BigJob D × List (NodeOut D)) where
  init := SPB.new E
  spawn := fun j => [(k, j)]
  step := fun k s j s' js log => ∃ os, JobStep E self V k s j s' js os ∧ log = [(j, os)]
  other := fun _ => False

/-- An entry of the log for a job that satisfies `Q`. -/
def done (Q : BigJob D → Bool) (e : BigJob D × List (NodeOut D)) : Bool := Q e.1

section Books

variable {E : Env D} {self : NodeID} {V : Rules D} {k : Key} {plan : ℕ → ProposeMsg D}
  {x : Pool Key (SPB D) (BigJob D) (BigJob D) (BigJob D × List (NodeOut D))}

theorem guarded : Guarded (SPB.new E) (JobStep E self V) k (Intake E V k plan) (Fits E V k plan)
    (FitBuffers E V k plan) where
  earlier _ _ h := h.init
  comes _ h := h.fits
  start := fitBuffers_new
  keeps _ _ _ _ _ hj hs h := h.fits hj hs

theorem serving_fits (hx : (serving E self V k).Run x) (hr : Intake E V k plan x.received) :
    (∀ j, (k, j) ∈ x.tasks → Fits E V k plan j) ∧ FitBuffers E V k plan (x.inst k) ∧
      ∀ e ∈ x.outs, Fits E V k plan e.1 ∧ ∃ s s' js, JobStep E self V k s e.1 s' js e.2 :=
  guarded.fits hx hr

/-- Jobs that are only started where the state is right, when steps keep it right. -/
theorem serving_witnessed {G : SPB D → Prop} {Q : BigJob D → Bool}
    (hmsg : ∀ j, isMessage j = true → Q j = false)
    (hkeep : ∀ s j s' js os, Fits E V k plan j → JobStep E self V k s j s' js os → G s → G s')
    (hnew : ∀ s j s' js os, Fits E V k plan j → JobStep E self V k s j s' js os →
      ∀ j' ∈ js, Q j' = true → G s')
    (hx : (serving E self V k).Serves x) (hr : Intake E V k plan x.received)
    (h : ∃ e ∈ x.outs, done Q e = true) : G (x.inst k) := by
  refine guarded.witnessed (Q := Q) (O := done Q) (fun _ hl j hj => hmsg j (hl.isMessage j hj)) hkeep ?_
    hx.run hr h
  rintro s j s' js os hj hstep (⟨j', hj', hq⟩ | hq)
  · exact Or.inl (hnew s j s' js os hj hstep j' hj' hq)
  · exact Or.inr hq

/-- **The books of instance `k`** balance when every step of a goroutine keeps them. -/
theorem books {W : List (BigJob D × List (NodeOut D)) → SPB D → ℕ} {K : SPB D → ℕ}
    {Q O P : BigJob D → Bool} (hinit : W [] (SPB.new E) = K (SPB.new E))
    (hP : ∀ j, isMessage j = true → Q j = P j)
    (hstep : ∀ x, (serving E self V k).Serves x → Intake E V k plan x.received →
      ∀ j s' js os, (k, j) ∈ x.tasks → Fits E V k plan j → FitBuffers E V k plan (x.inst k) →
      JobStep E self V k (x.inst k) j s' js os →
      W x.outs (x.inst k) + pending x.tasks k Q + x.outs.countP (done O) =
        x.received.countP P + K (x.inst k) →
      W (x.outs ++ [(j, os)]) s' + js.countP Q + (if O j then 1 else 0) + K (x.inst k) =
        W x.outs (x.inst k) + (if Q j then 1 else 0) + K s')
    (hx : (serving E self V k).Serves x) (hr : Intake E V k plan x.received) :
    W x.outs (x.inst k) + pending x.tasks k Q + x.outs.countP (done O) =
      x.received.countP P + K (x.inst k) :=
  guarded.books (O := done O) hinit (fun _ hl j hj => hP j (hl.isMessage j hj)) hstep hx hr

theorem countP_done_append (Q : BigJob D → Bool) (log : List (BigJob D × List (NodeOut D)))
    (j : BigJob D) (os : List (NodeOut D)) :
    (log ++ [(j, os)]).countP (done Q) = log.countP (done Q) + if Q j then 1 else 0 :=
  countP_entryOf_append Q log j os

theorem countP_done_false (log : List (BigJob D × List (NodeOut D))) :
    log.countP (done fun _ => false) = 0 :=
  List.countP_eq_zero.2 fun _ _ => Bool.false_ne_true

/-! ### Proposals -/

/-- The job replays the buffers of a height and sends the vote. -/
@[simp] def isReplay (height : ℕ) : BigJob D → Bool
  | .replay p => decide (p.height = height)
  | _ => false

theorem JobStep.blockHash_fits {s s' : SPB D} {j : BigJob D} {js : List (BigJob D)}
    {os : List (NodeOut D)} (hj : Fits E V k plan j) (h : JobStep E self V k s j s' js os)
    {height : ℕ} (hs : s.blockHash height = planned E plan height) :
    s'.blockHash height = planned E plan height := by
  have hupd : ∀ (p : ProposeMsg D) (n : ℕ), p.height = n → p = plan p.height →
      Function.update s.blockHash n (p.b.hash E) height = planned E plan height := by
    rintro p n rfl hp
    by_cases hh : height = p.height
    · subst hh
      rw [Function.update_self, planned, ← hp]
    · rw [Function.update_of_ne hh, hs]
  cases h with
  | proposeFirst p hp => exact hupd p _ hp hj.2.1
  | proposeSecond p hp hok => exact hupd p _ hp hj.2.1
  | _ => exact hs

theorem JobStep.blockHash_of_replay {s s' : SPB D} {j : BigJob D} {js : List (BigJob D)}
    {os : List (NodeOut D)} (hj : Fits E V k plan j) (h : JobStep E self V k s j s' js os)
    {height : ℕ} {j' : BigJob D} (hj' : j' ∈ js) (hq : isReplay height j' = true) :
    s'.blockHash height = planned E plan height := by
  have hone : ∀ (p : ProposeMsg D), j' ∈ [BigJob.replay p] → p.height = height := by
    intro p hp
    rw [List.mem_singleton.1 hp] at hq
    exact of_decide_eq_true hq
  cases h with
  | proposeFirst p hp =>
    have hh := hone p hj'
    rw [← hh, planned, ← hj.2.1, hp]
    dsimp only
    rw [Function.update_self]
  | proposeSecond p hp hok =>
    have hh := hone p hj'
    rw [← hh, planned, ← hj.2.1, hp]
    dsimp only
    rw [Function.update_self]
  | proposeOther p h₁ h₂ => exact absurd hj.1 (by simp only [HEIGHT_1, HEIGHT_2] at *; omega)
  | replay p => rcases mem_waiting hj' with ⟨-, p, -, rfl⟩ | ⟨-, v, -, rfl⟩ <;> simp at hq
  | quorumFirst v hv => rcases V.next_cases _ _ _ _ hj' with rfl | ⟨rfl, -⟩ <;> simp at hq
  | count v => split at hj' <;> simp_all
  | speedCount => split at hj' <;> simp_all
  | replaySpeed =>
    obtain ⟨sv, -, rfl⟩ := List.mem_map.1 hj'
    simp at hq
  | _ => simp_all

/-- The buffers of a height are replayed when its block has been recorded. -/
theorem accepted (hx : (serving E self V k).Serves x) (hr : Intake E V k plan x.received)
    {height : ℕ} (h : ∃ e ∈ x.outs, done (isReplay height) e = true) :
    (x.inst k).blockHash height = planned E plan height := by
  refine serving_witnessed (G := fun s => s.blockHash height = planned E plan height)
    (Q := isReplay height) ?_ ?_ ?_ hx hr h
  · intro j hj
    cases j <;> simp_all [isMessage]
  · intro s j s' js os hfit hstep hs
    exact hstep.blockHash_fits hfit hs
  · intro s j s' js os hfit hstep j' hj' hq
    exact hstep.blockHash_of_replay hfit hj' hq

theorem replays_first (hx : (serving E self V k).Serves x) (hr : Intake E V k plan x.received) :
    pending x.tasks k (toVote HEIGHT_1) + x.outs.countP (done (isReplay HEIGHT_1)) =
      x.received.countP (toVote HEIGHT_1) := by
  have h := books (W := fun _ _ => 0) (K := fun _ => 0) (Q := toVote HEIGHT_1)
    (O := isReplay HEIGHT_1) (P := toVote HEIGHT_1) rfl (fun _ _ => rfl) ?_ hx hr
  · simpa using h
  · intro x hx hr j s' js os hj hfit hbuf hstep _
    cases hstep with
    | crash _ hp => exact absurd hp hfit.not_panics
    | proposeWait p hp hok => simp [hp]
    | replay p =>
      rw [countP_waiting (fun _ p hp => by simp [(hbuf.unHandlePropose p hp).2]) fun _ _ => rfl]
      simp
    | quorumFirst v hv =>
      rw [countP_next rfl fun _ => rfl]
      simp
    | _ => simp

theorem countP_waiting_proposals {s : SPB D} (hs : FitBuffers E V k plan s) :
    (waiting s HEIGHT_1).countP (toVote HEIGHT_2) = s.unHandlePropose.length := by
  have hall : s.unHandlePropose.countP (fun p => toVote HEIGHT_2 (.propose p)) =
      s.unHandlePropose.length :=
    List.countP_eq_length.2 fun p hp => by simp [(hs.unHandlePropose p hp).2]
  simpa [waiting, List.countP_append, List.countP_map, Function.comp_def] using hall

/-- A height-2 proposal is with a goroutine, or waits for the replay of height 1, until its buffer is
replayed. -/
theorem replays_second (hx : (serving E self V k).Serves x) (hr : Intake E V k plan x.received) :
    (if x.outs.countP (done (isReplay HEIGHT_1)) = 0 then (x.inst k).unHandlePropose.length else 0) +
      pending x.tasks k (toVote HEIGHT_2) + x.outs.countP (done (isReplay HEIGHT_2)) =
      x.received.countP (toVote HEIGHT_2) := by
  refine books (W := fun log s => if log.countP (done (isReplay HEIGHT_1)) = 0 then
      s.unHandlePropose.length else 0) (K := fun _ => 0) (Q := toVote HEIGHT_2)
    (O := isReplay HEIGHT_2) (P := toVote HEIGHT_2) rfl (fun _ _ => rfl) ?_ hx hr
  intro x hx hr j s' js os hj hfit hbuf hstep _
  obtain ⟨n, hn⟩ : ∃ n, x.outs.countP (done (isReplay HEIGHT_1)) = n := ⟨_, rfl⟩
  rw [countP_done_append, hn]
  cases hstep with
  | crash _ hp => exact absurd hp hfit.not_panics
  | proposeFirst p hp => simp [hp]
  | proposeWait p hp hok =>
    -- the block of height 1 is not there, so that its buffers have not been replayed
    have hnone : n = 0 := by
      by_contra hne
      obtain ⟨e, he, hd⟩ := List.countP_pos_iff.1 (hn ▸ Nat.pos_of_ne_zero hne)
      have hacc := (hfit.2.2 hp _).2 (accepted hx hr ⟨e, he, hd⟩)
      rw [hok] at hacc
      cases hacc
    simp [hnone, hp]
  | replay p =>
    by_cases hp : p.height = HEIGHT_1
    · have hfirst := replays_first hx hr
      have hpos : 0 < pending x.tasks k (toVote HEIGHT_1) := pending_pos hj (by simp [hp])
      have honce := hr.once HEIGHT_1
      have hnone : n = 0 := by omega
      simp [hp, hnone, countP_waiting_proposals hbuf]
    · rw [countP_waiting (fun h => absurd h hp) fun _ _ => rfl]
      simp [hp]
  | quorumFirst v hv =>
    rw [countP_next rfl fun _ => rfl]
    simp
  | _ => simp

theorem replay_once (hx : (serving E self V k).Serves x) (hr : Intake E V k plan x.received)
    {height : ℕ} (hh : height ≤ HEIGHT_2) (hpos : 0 < pending x.tasks k (toVote height)) :
    x.outs.countP (done (isReplay height)) = 0 := by
  have hfirst := replays_first hx hr
  have hsecond := replays_second hx hr
  have honce := hr.once height
  rcases height_cases hh with rfl | rfl <;> omega

/-! ### Votes -/

/-- The replay of a height brings back all the votes of that height. -/
theorem countP_waiting_fits {s : SPB D} (hs : FitBuffers E V k plan s) {height : ℕ}
    (hh : height ≤ HEIGHT_2) :
    (waiting s height).countP (toCount height) = (s.unHandleVote height).length := by
  have hall : (s.unHandleVote height).countP (fun v => toCount height (.vote v)) =
      (s.unHandleVote height).length :=
    List.countP_eq_length.2 fun v hv => by simp [(hs.unHandleVote height v hv).2]
  rcases height_cases hh with rfl | rfl <;>
    simpa [waiting, List.countP_append, List.countP_map, Function.comp_def] using hall

/-- A vote is with a goroutine, or waits for the replay of its height, until it is counted. -/
theorem votes_counted (hx : (serving E self V k).Serves x) (hr : Intake E V k plan x.received)
    {height : ℕ} (hh : height ≤ HEIGHT_2) :
    (x.inst k).voteNums height + (if x.outs.countP (done (isReplay height)) = 0 then
      ((x.inst k).unHandleVote height).length else 0) + pending x.tasks k (toCount height) =
      x.received.countP (toCount height) := by
  have h := books (W := fun log s => s.voteNums height +
      if log.countP (done (isReplay height)) = 0 then (s.unHandleVote height).length else 0)
    (K := fun _ => 0) (Q := toCount height) (O := fun _ => false) (P := toCount height) rfl
    (fun _ _ => rfl) ?_ hx hr
  · rw [countP_done_false] at h
    exact h
  · intro x hx hr j s' js os hj hfit hbuf hstep _
    obtain ⟨n, hn⟩ : ∃ n, x.outs.countP (done (isReplay height)) = n := ⟨_, rfl⟩
    rw [countP_done_append, hn]
    cases hstep with
    | crash _ hp => exact absurd hp hfit.not_panics
    | voteWait v hv hne =>
      by_cases hvh : v.height = height
      · -- the block of the height is not there, so that its buffer has not been replayed
        have hnone : n = 0 := by
          by_contra hn0
          obtain ⟨e, he, hd⟩ := List.countP_pos_iff.1 (hn ▸ Nat.pos_of_ne_zero hn0)
          have hacc := accepted hx hr ⟨e, he, hd⟩
          exact hne ((hvh ▸ hacc).trans hfit.2.symm)
        subst hvh
        simp [hnone, Nat.add_assoc]
      · simp [hvh, Function.update_of_ne (Ne.symm hvh)]
    | count v =>
      by_cases hvh : v.height = height
      · subst hvh
        simp
        omega
      · simp [hvh, Function.update_of_ne (Ne.symm hvh)]
    | replay p =>
      by_cases hp : p.height = height
      · have hnone : n = 0 := by
          rw [← hn]
          exact replay_once hx hr hh (pending_pos hj (by simp [hp]))
        simp [hp, hnone, countP_waiting_fits hbuf hh]
      · have hw : (waiting (x.inst k) p.height).countP (toCount height) = 0 :=
          countP_waiting (fun _ _ _ => rfl) fun v hv => by
            simp [(hbuf.unHandleVote _ v hv).2, hp]
        simp [hp, hw]
    | quorumFirst v hv =>
      rw [countP_next rfl fun _ => rfl]
      simp
    | _ => simp

/-- **A certificate of a height is made once**, of the vote that completes the quorum. -/
theorem certified_once (hx : (serving E self V k).Serves x) (hr : Intake E V k plan x.received)
    (height : ℕ) : ((x.inst k).blockQcs height).isSome.toNat +
      pending x.tasks k (toCertify height) =
      if E.hightThreshold ≤ (x.inst k).voteNums height then 1 else 0 := by
  have h := books (W := fun _ s => (s.blockQcs height).isSome.toNat)
    (K := fun s => if E.hightThreshold ≤ s.voteNums height then 1 else 0) (Q := toCertify height)
    (O := fun _ => false) (P := fun _ => false) (by simp [SPB.new, Env.hightThreshold])
    (fun j hj => by cases j <;> simp_all [isMessage]) ?_ hx hr
  · simpa [countP_done_false] using h
  · intro x hx hr j s' js os hj hfit hbuf hstep ih
    have hqc : ∀ v : VoteMsg D, (k, .quorum v) ∈ x.tasks → (Function.update (x.inst k).blockQcs
        v.height (some (v.makeQC k)) height).isSome.toNat =
        ((x.inst k).blockQcs height).isSome.toNat + if v.height = height then 1 else 0 := by
      intro v hv
      by_cases hh : v.height = height
      · have hpos : 0 < pending x.tasks k (toCertify height) := pending_pos hv (by simp [hh])
        have hzero : ((x.inst k).blockQcs height).isSome.toNat = 0 := by
          simp only [countP_done_false] at ih
          split at ih <;> simp at ih <;> omega
        subst hh
        simp [hzero]
      · simp [hh, Function.update_of_ne (Ne.symm hh)]
    cases hstep with
    | crash _ hp => exact absurd hp hfit.not_panics
    | count v =>
      by_cases hh : v.height = height
      · subst hh
        have hc := crossing E.hightThreshold ((x.inst k).voteNums v.height)
        simp only [Function.update_self]
        rw [← hc]
        simp [Nat.add_assoc]
      · simp [hh, Function.update_of_ne (Ne.symm hh)]
    | replay p =>
      rw [countP_waiting (fun _ _ _ => rfl) fun _ _ => rfl]
      simp
    | quorumFirst v hv =>
      rw [countP_next rfl fun _ => rfl, hqc v hj]
      simp
    | quorumSecond v hv =>
      rw [hqc v hj]
      simp
    | quorumOther v h₁ h₂ =>
      rw [hqc v hj]
      simp
    | _ => simp

theorem isSome_certify (hx : (serving E self V k).Serves x) (hr : Intake E V k plan x.received)
    {v : VoteMsg D} (hv : (k, .quorum v) ∈ x.tasks) (height : ℕ) :
    (Function.update (x.inst k).blockQcs v.height (some (v.makeQC k)) height).isSome.toNat =
      ((x.inst k).blockQcs height).isSome.toNat + if v.height = height then 1 else 0 := by
  by_cases hh : v.height = height
  · have honce := certified_once hx hr height
    have hpos : 0 < pending x.tasks k (toCertify height) := pending_pos hv (by simp [hh])
    have hzero : ((x.inst k).blockQcs height).isSome.toNat = 0 := by split at honce <;> omega
    subst hh
    simp [hzero]
  · simp [hh, Function.update_of_ne (Ne.symm hh)]

/-- A certificate of a height stands for the job that made it. -/
theorem certify_done (hx : (serving E self V k).Serves x) (hr : Intake E V k plan x.received)
    (height : ℕ) :
    x.outs.countP (done (toCertify height)) = ((x.inst k).blockQcs height).isSome.toNat := by
  have h := books (W := fun _ _ => 0) (K := fun s => (s.blockQcs height).isSome.toNat)
    (Q := fun _ => false) (O := toCertify height) (P := fun _ => false) rfl (fun _ _ => rfl) ?_ hx hr
  · simpa [pending] using h
  · intro x hx hr j s' js os hj hfit hbuf hstep _
    cases hstep with
    | quorumFirst v hv =>
      rw [isSome_certify hx hr hj]
      simp [Nat.add_comm]
    | quorumSecond v hv =>
      rw [isSome_certify hx hr hj]
      simp [Nat.add_comm]
    | quorumOther v h₁ h₂ =>
      rw [isSome_certify hx hr hj]
      simp [Nat.add_comm]
    | crash _ hp => exact absurd hp hfit.not_panics
    | _ => simp

/-- The job follows a height-1 certificate, with a proposal or with a callback. -/
@[simp] def isNext (proposal : Bool) : BigJob D → Bool
  | .newPropose _ => proposal
  | .callBack => !proposal
  | _ => false

theorem next_done (hx : (serving E self V k).Serves x) (hr : Intake E V k plan x.received)
    {proposal : Bool} {n : ℕ} (hn : ∀ v, (V.next self k v).countP (isNext proposal) = n) :
    pending x.tasks k (isNext proposal) + x.outs.countP (done (isNext proposal)) =
      ((x.inst k).blockQcs HEIGHT_1).isSome.toNat * n := by
  have h := books (W := fun _ _ => 0) (K := fun s => (s.blockQcs HEIGHT_1).isSome.toNat * n)
    (Q := isNext proposal) (O := isNext proposal) (P := fun _ => false) (by simp [SPB.new])
    (fun j hj => by cases j <;> simp_all [isMessage]) ?_ hx hr
  · simpa using h
  · intro x hx hr j s' js os hj hfit hbuf hstep _
    cases hstep with
    | quorumFirst v hv =>
      rw [isSome_certify hx hr hj, hn]
      simp [hv, Nat.add_mul, Nat.add_comm]
    | quorumSecond v hv =>
      rw [isSome_certify hx hr hj]
      simp [hv]
    | quorumOther v h₁ h₂ =>
      rw [isSome_certify hx hr hj]
      simp [h₁]
    | replay p => rw [countP_waiting (fun _ _ _ => rfl) fun _ _ => rfl]
    | crash _ hp => exact absurd hp hfit.not_panics
    | _ => simp

/-! ### Speed votes -/

/-- The buffer of the speed votes is replayed once, after the height-2 certificate. -/
theorem replaySpeed_done (hx : (serving E self V k).Serves x)
    (hr : Intake E V k plan x.received) :
    pending x.tasks k toReplaySpeed + x.outs.countP (done toReplaySpeed) =
      ((x.inst k).blockQcs HEIGHT_2).isSome.toNat := by
  have h := books (W := fun _ _ => 0) (K := fun s => (s.blockQcs HEIGHT_2).isSome.toNat)
    (Q := toReplaySpeed) (O := toReplaySpeed) (P := fun _ => false) rfl
    (fun j hj => by cases j <;> simp_all [isMessage]) ?_ hx hr
  · simpa using h
  · intro x hx hr j s' js os hj hfit hbuf hstep _
    cases hstep with
    | quorumFirst v hv =>
      rw [isSome_certify hx hr hj, countP_next rfl fun _ => rfl]
      simp [hv]
    | quorumSecond v hv =>
      rw [isSome_certify hx hr hj]
      simp [hv, Nat.add_comm]
    | quorumOther v h₁ h₂ =>
      rw [isSome_certify hx hr hj]
      simp [h₂]
    | replay p => rw [countP_waiting (fun _ _ _ => rfl) fun _ _ => rfl]
    | crash _ hp => exact absurd hp hfit.not_panics
    | _ => simp

/-- The job counts a speed vote. -/
@[simp] def isSpeedCount : BigJob D → Bool
  | .speedCount => true
  | _ => false

/-- Speed votes are counted, and their buffer is replayed, once there is a height-2 certificate. -/
theorem certified_of_speed (hx : (serving E self V k).Serves x)
    (hr : Intake E V k plan x.received)
    (h : ∃ e ∈ x.outs, done (fun j => toReplaySpeed j || isSpeedCount j) e = true) :
    (x.inst k).blockQcs HEIGHT_2 ≠ none := by
  refine serving_witnessed (G := fun s => s.blockQcs HEIGHT_2 ≠ none)
    (Q := fun j => toReplaySpeed j || isSpeedCount j) ?_ ?_ ?_ hx hr h
  · intro j hj
    cases j <;> simp_all [isMessage]
  · intro s j s' js os _ hstep hs
    exact hstep.blockQcs_ne_none hs
  · intro s j s' js os _ hstep j' hj' hq
    cases hstep with
    | quorumSecond v hv => simp [hv]
    | speedVote sv hp hv hn => exact hn
    | replay p => rcases mem_waiting hj' with ⟨-, p, -, rfl⟩ | ⟨-, v, -, rfl⟩ <;> simp at hq
    | quorumFirst v hv => rcases V.next_cases _ _ _ _ hj' with rfl | ⟨rfl, -⟩ <;> simp at hq
    | count v => split at hj' <;> simp_all
    | speedCount => split at hj' <;> simp_all
    | replaySpeed =>
      obtain ⟨sv, -, rfl⟩ := List.mem_map.1 hj'
      simp at hq
    | _ => simp_all

theorem speedVotes_counted (hx : (serving E self V k).Serves x)
    (hr : Intake E V k plan x.received) :
    (x.inst k).speedVoteNums + (if x.outs.countP (done toReplaySpeed) = 0 then
      (x.inst k).unHandleSpeedVote.length else 0) + pending x.tasks k (toSpeedCount k) =
      x.received.countP (toSpeedCount k) := by
  have h := books (W := fun log s => s.speedVoteNums +
      if log.countP (done toReplaySpeed) = 0 then s.unHandleSpeedVote.length else 0)
    (K := fun _ => 0) (Q := toSpeedCount k) (O := fun _ => false) (P := toSpeedCount k) rfl
    (fun _ _ => rfl) ?_ hx hr
  · rw [countP_done_false] at h
    exact h
  · intro x hx hr j s' js os hj hfit hbuf hstep _
    obtain ⟨n, hn⟩ : ∃ n, x.outs.countP (done toReplaySpeed) = n := ⟨_, rfl⟩
    rw [countP_done_append, hn]
    cases hstep with
    | crash _ hp => exact absurd hp hfit.not_panics
    | replay p =>
      rw [countP_waiting (fun _ _ _ => rfl) fun _ _ => rfl]
      simp
    | quorumFirst v hv =>
      rw [countP_next rfl fun _ => rfl]
      simp
    | replaySpeed =>
      have hdone := replaySpeed_done hx hr
      have hpos : 0 < pending x.tasks k toReplaySpeed := pending_pos hj rfl
      have hle := Bool.toNat_le ((x.inst k).blockQcs HEIGHT_2).isSome
      have hnone : n = 0 := by omega
      have hall : (x.inst k).unHandleSpeedVote.countP (fun sv => toSpeedCount k (.speedVote sv)) =
          (x.inst k).unHandleSpeedVote.length :=
        List.countP_eq_length.2 fun sv hsv => by
          obtain ⟨hp, hv⟩ := hbuf.unHandleSpeedVote sv hsv
          simp [hp, hv]
      simpa [hnone, List.countP_map, Function.comp_def] using hall
    | speedDrop sv h => exact absurd hfit (by rintro ⟨hp, hv⟩; exact h.elim (· hp) (· hv))
    | speedWait sv hp hv hnone =>
      have hn0 : n = 0 := by
        by_contra hne
        obtain ⟨e, he, hd⟩ := List.countP_pos_iff.1 (hn ▸ Nat.pos_of_ne_zero hne)
        exact certified_of_speed hx hr ⟨e, he, Bool.or_eq_true_iff.2 (Or.inl hd)⟩ hnone
      simp [hn0, hp, hv, Nat.add_assoc]
    | speedVote sv hp hv hne => simp [hp, hv]
    | speedCount =>
      simp
      omega
    | _ => simp

theorem speedCount_done (hx : (serving E self V k).Serves x) (hr : Intake E V k plan x.received) :
    x.outs.countP (done isSpeedCount) = (x.inst k).speedVoteNums := by
  have h := books (W := fun _ _ => 0) (K := fun s => s.speedVoteNums) (Q := fun _ => false)
    (O := isSpeedCount) (P := fun _ => false) rfl (fun _ _ => rfl) ?_ hx hr
  · simpa [pending] using h
  · intro x hx hr j s' js os hj hfit hbuf hstep _
    cases hstep with
    | crash _ hp => exact absurd hp hfit.not_panics
    | speedCount => simp [Nat.add_comm]
    | _ => simp

/-- The job marks the instance as speedily certified. -/
@[simp] def isSpeedCertJob : BigJob D → Bool
  | .speedCert => true
  | _ => false

theorem Panics.not_speed {s : SPB D} {j : BigJob D} (h : Panics V s j) :
    toSpeedCount k j = false ∧ toReplaySpeed j = false ∧ isSpeedCertJob j = false := by
  cases j with
  | propose p => exact ⟨rfl, rfl, rfl⟩
  | vote v => exact ⟨rfl, rfl, rfl⟩
  | _ => exact h.elim

/-- **An instance is marked once**, when it has counted enough speed votes, by the goroutine of the last
of them; in every pool that runs the goroutines of the instance. -/
theorem speedCert_marked {μ ο : Type} {C : PoolCode Key (SPB D) (BigJob D) μ ο}
    {y : Pool Key (SPB D) (BigJob D) μ ο} {R : List μ → Prop} (hinit : C.init = SPB.new E)
    (hstep : ∀ s j s' js os, C.step k s j s' js os → ∃ os', JobStep E self V k s j s' js os')
    (hR : ∀ l m, R (l ++ [m]) → R l)
    (hspawn : ∀ l m, R (l ++ [m]) → pending (C.spawn m) k isSpeedCertJob = 0)
    (hy : C.Serves y) (hr : R y.received) :
    (y.inst k).isSpeedCert.toNat + pending y.tasks k isSpeedCertJob =
      if E.hightThreshold ≤ (y.inst k).speedVoteNums then 1 else 0 := by
  have h := hy.balance_marked hR k (M := fun _ => false)
    (W := fun _ _ s => s.isSpeedCert.toNat)
    (K := fun s => if E.hightThreshold ≤ s.speedVoteNums then 1 else 0) (Q := isSpeedCertJob)
    (O := fun _ => false) (P := fun _ => false) (by simp [hinit, SPB.new, Env.hightThreshold])
    (fun _ m _ => by simp [pending]) (fun l m hl => by simpa using hspawn l m hl) ?_
    (fun _ _ _ _ _ _ _ _ _ _ _ => ⟨by simp, fun _ => rfl⟩) hr
  · simpa using h
  · intro y hy _ j s' js os n hj hs _ ih
    obtain ⟨os', hs⟩ := hstep _ _ _ _ _ hs
    cases hs with
    | crash _ hp =>
      rw [(hp.not_speed (k := k)).2.2]
      simp
    | replay p =>
      rw [countP_waiting (fun _ _ _ => rfl) fun _ _ => rfl]
      simp
    | quorumFirst v hv =>
      rw [countP_next rfl fun _ => rfl]
      simp
    | replaySpeed => simp [List.countP_map, Function.comp_def]
    | speedCount =>
      have hc := crossing E.hightThreshold (y.inst k).speedVoteNums
      rw [← hc]
      simp [Nat.add_assoc]
    | speedCert =>
      -- the goroutine is the one that marks, so that the instance is not marked yet
      have hpos : 0 < pending y.tasks k isSpeedCertJob := pending_pos hj rfl
      have hzero : (y.inst k).isSpeedCert.toNat = 0 := by
        simp only [List.countP_false] at ih
        split at ih <;> simp at ih <;> omega
      simp [hzero]
    | _ => simp

theorem speedCert_once (hx : (serving E self V k).Serves x) (hr : Intake E V k plan x.received) :
    (x.inst k).isSpeedCert.toNat + pending x.tasks k isSpeedCertJob =
      if E.hightThreshold ≤ (x.inst k).speedVoteNums then 1 else 0 := by
  have hstep : ∀ s j s' js os, (serving E self V k).step k s j s' js os →
      ∃ os', JobStep E self V k s j s' js os' := by
    rintro s j s' js os ⟨os', hs, -⟩
    exact ⟨os', hs⟩
  refine speedCert_marked rfl hstep (fun _ _ hl => hl.init) (fun l j hl => ?_) hx hr
  have hj := hl.isMessage j (by simp)
  cases j <;> simp_all [serving, pending, isMessage]

/-! ### What was sent -/

/-- The proposal whose buffers a job replays. -/
@[simp] def replayOf : BigJob D → Option (ProposeMsg D)
  | .replay p => some p
  | _ => none

@[simp] def isVoteMsg : Msg D → Bool
  | .vote _ => true
  | _ => false

@[simp] def isSpeedVoteMsg : Msg D → Bool
  | .speedVote _ => true
  | _ => false

@[simp] def isSecondProposeMsg : Msg D → Bool
  | .propose p => decide (p.height = HEIGHT_2)
  | _ => false

theorem JobStep.filter_votes {s s' : SPB D} {j : BigJob D} {js : List (BigJob D)}
    {os : List (NodeOut D)} (h : JobStep E self V k s j s' js os) :
    os.filter (Out.carries isVoteMsg) =
      (replayOf j).toList.map fun p => .bcast (.vote (newVoteMsg E self p.b)) := by
  cases h with
  | crash _ hp => cases j <;> first | rfl | exact hp.elim
  | _ => simp

theorem JobStep.countP_speedVotes {s s' : SPB D} {j : BigJob D} {js : List (BigJob D)}
    {os : List (NodeOut D)} (h : JobStep E self V k s j s' js os) :
    os.countP (Out.carries isSpeedVoteMsg) = if toCertify HEIGHT_2 j then 1 else 0 := by
  cases h with
  | crash _ hp => cases j <;> first | rfl | exact hp.elim
  | quorumFirst v hv => simp [hv]
  | quorumSecond v hv => simp [hv]
  | quorumOther v h₁ h₂ => simp [h₂]
  | _ => simp

theorem JobStep.countP_proposals {s s' : SPB D} {j : BigJob D} {js : List (BigJob D)}
    {os : List (NodeOut D)} (h : JobStep E self V k s j s' js os) :
    os.countP (Out.carries isSecondProposeMsg) = if isNext true j then 1 else 0 := by
  cases h with
  | crash _ hp => cases j <;> first | rfl | exact hp.elim
  | newPropose v batch => simp [newProposeMsg]
  | _ => simp

/-! ### At rest -/

section Rest

variable (hx : (serving E self V k).Serves x) (hr : Intake E V k plan x.received)
  (hrest : x.tasks = []) (hone : ∀ height ≤ HEIGHT_2, x.received.countP (toVote height) = 1)

include hx hr hrest hone

theorem rest_replays {height : ℕ} (hh : height ≤ HEIGHT_2) :
    x.outs.countP (done (isReplay height)) = 1 := by
  have hfirst := replays_first hx hr
  have hsecond := replays_second hx hr
  have h1 := hone HEIGHT_1 (by decide)
  have h2 := hone HEIGHT_2 le_rfl
  simp only [hrest, pending, List.countP_nil] at hfirst hsecond
  rw [if_neg (by omega)] at hsecond
  rcases height_cases hh with rfl | rfl <;> omega

theorem rest_blockHash {height : ℕ} (hh : height ≤ HEIGHT_2) :
    (x.inst k).blockHash height = planned E plan height := by
  have hpos : 0 < x.outs.countP (done (isReplay height)) := by
    rw [rest_replays hx hr hrest hone hh]
    exact Nat.one_pos
  exact accepted hx hr (List.countP_pos_iff.1 hpos)

theorem rest_voteNums {height : ℕ} (hh : height ≤ HEIGHT_2) :
    (x.inst k).voteNums height = x.received.countP (toCount height) := by
  have h := votes_counted hx hr hh
  rw [rest_replays hx hr hrest hone hh, if_neg Nat.one_ne_zero] at h
  simpa [hrest, pending] using h

theorem rest_blockQcs {height : ℕ} (hh : height ≤ HEIGHT_2) :
    ((x.inst k).blockQcs height).isSome.toNat =
      if E.hightThreshold ≤ x.received.countP (toCount height) then 1 else 0 := by
  have h := certified_once hx hr height
  rw [rest_voteNums hx hr hrest hone hh] at h
  simpa [hrest, pending] using h

theorem rest_certified {height : ℕ} (hh : height ≤ HEIGHT_2) :
    (x.inst k).blockQcs height ≠ none ↔
      E.hightThreshold ≤ x.received.countP (toCount height) := by
  have h := rest_blockQcs hx hr hrest hone hh
  rw [← Option.isSome_iff_ne_none]
  cases hs : ((x.inst k).blockQcs height).isSome <;> rw [hs] at h <;> split at h <;> simp_all

/-- All speed votes have been counted where there is a height-2 certificate, and none elsewhere. -/
theorem rest_speedVoteNums : (x.inst k).speedVoteNums =
    if (x.inst k).blockQcs HEIGHT_2 = none then 0 else x.received.countP (toSpeedCount k) := by
  split
  · next hnone =>
    by_contra hne
    rw [← speedCount_done hx hr] at hne
    obtain ⟨e, he, hd⟩ := List.countP_pos_iff.1 (Nat.pos_of_ne_zero hne)
    exact certified_of_speed hx hr ⟨e, he, Bool.or_eq_true_iff.2 (Or.inr hd)⟩ hnone
  · next hqc =>
    have hdone := replaySpeed_done hx hr
    rw [Option.isSome_iff_ne_none.2 hqc] at hdone
    have h := speedVotes_counted hx hr
    simp only [hrest, pending, List.countP_nil, Bool.toNat_true] at hdone h
    rw [if_neg (by omega)] at h
    exact h

theorem rest_speedCert : (x.inst k).isSpeedCert = true ↔
    E.hightThreshold ≤ x.received.countP (toCount HEIGHT_2) ∧
      E.hightThreshold ≤ x.received.countP (toSpeedCount k) := by
  have hcert : (x.inst k).isSpeedCert = true ↔ E.hightThreshold ≤ (x.inst k).speedVoteNums := by
    have h := speedCert_once hx hr
    simp only [hrest, pending, List.countP_nil, Nat.add_zero] at h
    cases hs : (x.inst k).isSpeedCert <;> rw [hs] at h <;> split at h <;> simp_all
  have hpos : 0 < E.hightThreshold := Nat.succ_pos _
  rw [hcert, rest_speedVoteNums hx hr hrest hone, ← rest_certified hx hr hrest hone le_rfl]
  split
  · next hnone => simp [hnone, hpos.ne']
  · next hqc => simp [hqc]

theorem rest_replayed :
    (x.outs.filterMap fun e => replayOf e.1).Perm [plan HEIGHT_1, plan HEIGHT_2] := by
  have hfits : ∀ p ∈ x.outs.filterMap (fun e => replayOf e.1),
      p.height ≤ HEIGHT_2 ∧ plan p.height = p := by
    intro p hp
    obtain ⟨⟨j, os⟩, he, hre⟩ := List.mem_filterMap.1 hp
    have hfit := ((serving_fits hx.run hr).2.2 _ he).1
    cases j with
    | replay p' =>
      cases hre
      exact ⟨hfit.1, hfit.2.1.symm⟩
    | _ => cases hre
  have hcount : ∀ (P : ProposeMsg D → Bool) (height : ℕ), height ≤ HEIGHT_2 →
      (∀ p : ProposeMsg D, p.height ≤ HEIGHT_2 → P p = decide (p.height = height)) →
      (x.outs.filterMap fun e => replayOf e.1).countP P = 1 := by
    intro P height hh hP
    rw [List.countP_congr fun p hp => by rw [hP p (hfits p hp).1], List.countP_filterMap,
      ← rest_replays hx hr hrest hone hh]
    refine List.countP_congr fun e _ => ?_
    obtain ⟨j, os⟩ := e
    cases j <;> simp [done]
  refine perm_pair (P := fun p => decide (p.height = HEIGHT_1)) ?_ ?_ ?_ ?_
  · intro p hp h
    rw [← of_decide_eq_true h, (hfits p hp).2]
  · intro p hp h
    have hh := (height_cases (hfits p hp).1).resolve_left (of_decide_eq_false h)
    rw [← hh, (hfits p hp).2]
  · exact hcount _ HEIGHT_1 (by decide) fun _ _ => rfl
  · refine hcount _ HEIGHT_2 le_rfl fun p hp => ?_
    rcases height_cases hp with h | h <;> rw [h] <;> rfl

end Rest

end Books

end BigSPB

end S2Pac
