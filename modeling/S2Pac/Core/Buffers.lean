import S2Pac.Bench
import S2Pac.Core.Votes
import S2Pac.Lib.Log

/-!
# The buffers of the lean protocol

A height-2 proposal that comes before the height-1 proposal waits in one buffer, a `FinVoteMsg` that comes
before the height-2 proposal in another one. The buffers are replayed when the proposal is there and are never
emptied. For an instance that is handed the messages of an honest proposer, the votes and the speed votes,
each once, the books say where each of them is: with a goroutine, in a buffer that has not been replayed, or
done with. They hold in every order of the goroutines, which come to rest after finitely many steps
(`remaining_falls`).
-/

set_option linter.unusedSectionVars false

namespace S2Pac

open Lib

variable {D : Type} [DecidableEq D]

namespace Core

/-! ## What an instance is handed -/

/-- In the lean protocol there is a `FinVoteMsg` too. -/
structure FinInputs (D : Type) extends Inputs D where
  fin : FinVoteMsg D

namespace FinInputs

/-- The goroutines that the messages are handed to, each once. -/
def jobs (m : FinInputs D) : List (SpbJob D) :=
  [.propose m.first, .propose m.second, .finVote m.fin] ++ m.votes₁.map .vote ++ m.votes₂.map .vote ++
    m.speedVotes.map .speedVote

/-- **The messages go together**: the blocks of the proposals have the hashes `h₁` and `h₂`, the certificates
in the height-2 proposal and in the `FinVoteMsg` are for them and so are the votes, and the speed votes are
for instance `k`. -/
structure For (E : Env D) (k : Key) (h₁ h₂ : D) (m : FinInputs D) : Prop where
  first : m.first.height = HEIGHT_1 ∧ m.first.b.hash E = h₁
  second : m.second.height = HEIGHT_2 ∧ m.second.b.hash E = h₂
  parent : ∃ qc, m.second.b.qc = some qc ∧ qc.parentBlockHash = h₁
  fin : m.fin.author = k.2 ∧ m.fin.view = k.1
  finParent : ∃ qc, m.fin.qc = some qc ∧ qc.parentBlockHash = h₂
  votes₁ : ∀ v ∈ m.votes₁, v.height = HEIGHT_1 ∧ v.blockHash = h₁
  votes₂ : ∀ v ∈ m.votes₂, v.height = HEIGHT_2 ∧ v.blockHash = h₂
  speedVotes : ∀ sv ∈ m.speedVotes, sv.proposer = k.2 ∧ sv.view = k.1

section Count

variable {E : Env D} {k : Key} {h₁ h₂ : D} {m : FinInputs D} (hm : m.For E k h₁ h₂)

include hm

theorem For.countP_jobs {Q : SpbJob D → Bool} {q₁ q₂ q₃ r₁ r₂ r₃ : Bool}
    (hp₁ : Q (.propose m.first) = q₁) (hp₂ : Q (.propose m.second) = q₂) (hf : Q (.finVote m.fin) = q₃)
    (hv₁ : ∀ v : VoteMsg D, v.height = HEIGHT_1 → Q (.vote v) = r₁)
    (hv₂ : ∀ v : VoteMsg D, v.height = HEIGHT_2 → Q (.vote v) = r₂)
    (hs : ∀ sv : SpeedVoteMsg D, Q (.speedVote sv) = r₃) :
    m.jobs.countP Q = q₁.toNat + q₂.toNat + q₃.toNat + r₁.toNat * m.votes₁.length +
      r₂.toNat * m.votes₂.length + r₃.toNat * m.speedVotes.length := by
  rw [jobs, List.countP_append, List.countP_append, List.countP_append,
    countP_map_const fun v hv => hv₁ v (hm.votes₁ v hv).1,
    countP_map_const fun v hv => hv₂ v (hm.votes₂ v hv).1, countP_map_const fun sv _ => hs sv]
  simp only [List.countP_cons, List.countP_nil, hp₁, hp₂, hf]
  cases q₁ <;> cases q₂ <;> cases q₃ <;> rfl

theorem For.countP_first : m.jobs.countP (toVote HEIGHT_1) = 1 := by
  rw [hm.countP_jobs (decide_eq_true hm.first.1) (decide_eq_false (by rw [hm.second.1]; decide)) rfl
    (fun _ _ => rfl) (fun _ _ => rfl) fun _ => rfl]
  simp

theorem For.countP_second : m.jobs.countP (toVote HEIGHT_2) = 1 := by
  rw [hm.countP_jobs (decide_eq_false (by rw [hm.first.1]; decide)) (decide_eq_true hm.second.1) rfl
    (fun _ _ => rfl) (fun _ _ => rfl) fun _ => rfl]
  simp

theorem For.countP_fin : m.jobs.countP toFinVote = 1 := by
  rw [hm.countP_jobs rfl rfl rfl (fun _ _ => rfl) (fun _ _ => rfl) fun _ => rfl]
  simp

theorem For.countP_votes₁ : m.jobs.countP (toCount HEIGHT_1) = m.votes₁.length := by
  rw [hm.countP_jobs rfl rfl rfl (fun _ h => decide_eq_true h)
    (fun _ h => decide_eq_false (by rw [h]; decide)) fun _ => rfl]
  simp

theorem For.countP_votes₂ : m.jobs.countP (toCount HEIGHT_2) = m.votes₂.length := by
  rw [hm.countP_jobs rfl rfl rfl (fun _ h => decide_eq_false (by rw [h]; decide))
    (fun _ h => decide_eq_true h) fun _ => rfl]
  simp

theorem For.countP_speed : m.jobs.countP toSpeedCount = m.speedVotes.length := by
  rw [hm.countP_jobs rfl rfl rfl (fun _ _ => rfl) (fun _ _ => rfl) fun _ => rfl]
  simp

end Count

end FinInputs

section Fits

variable (m : FinInputs D) (k : Key)

/-- The job works on one of the messages, or on a vote or speed vote that the instance counts. -/
def Fits : SpbJob D → Prop
  | .propose p => p = m.first ∨ p = m.second
  | .replay p => p = m.first ∨ p = m.second
  | .vote v => v.height ≤ HEIGHT_2
  | .quorum v => v.height ≤ HEIGHT_2
  | .finVote fv => fv = m.fin
  | .speedVote sv => sv.proposer = k.2 ∧ sv.view = k.1
  | .speedCert => True

/-- What waits in the buffers. -/
structure FitBuffers (s : SPB D) : Prop where
  unHandlePropose : ∀ p ∈ s.unHandlePropose, p = m.second
  unHandleFinVote : ∀ fv ∈ s.unHandleFinVote, fv = m.fin

variable {E : Env D} {self : NodeID} {h₁ h₂ : D} {m k} (hm : m.For E k h₁ h₂)

include hm

theorem Fits.first {p : ProposeMsg D} (h : Fits m k (.propose p)) (hp : p.height = HEIGHT_1) :
    p = m.first := by
  rcases h with h | h
  · exact h
  · rw [h, hm.second.1] at hp
    cases hp

theorem Fits.second {p : ProposeMsg D} (h : Fits m k (.propose p)) (hp : p.height = HEIGHT_2) :
    p = m.second := by
  rcases h with h | h
  · rw [h, hm.first.1] at hp
    cases hp
  · exact h

theorem Fits.height {p : ProposeMsg D} (h : Fits m k (.propose p)) :
    p.height = HEIGHT_1 ∨ p.height = HEIGHT_2 := by
  rcases h with rfl | rfl
  · exact Or.inl hm.first.1
  · exact Or.inr hm.second.1

theorem Fits.not_panics {j : SpbJob D} (h : Fits m k j) : ¬ Panics k j := by
  cases j with
  | propose p =>
    rintro ⟨hp, hnone⟩
    obtain ⟨qc, hqc, -⟩ := hm.parent
    rw [Fits.second hm h hp, hqc] at hnone
    cases hnone
  | vote v => exact not_lt.2 h
  | finVote fv =>
    rintro ⟨-, -, hnone⟩
    obtain ⟨qc, hqc, -⟩ := hm.finParent
    rw [h, hqc] at hnone
    cases hnone
  | _ => exact id

theorem JobStep.fits {s s' : SPB D} {j : SpbJob D} {js : List (SpbJob D)} {os : List (NodeOut D)}
    (hj : Fits m k j) (hs : FitBuffers m s) (h : JobStep E self k s j s' js os) :
    (∀ j' ∈ js, Fits m k j') ∧ FitBuffers m s' := by
  have hone : ∀ j₁ : SpbJob D, Fits m k j₁ → ∀ j' ∈ [j₁], Fits m k j' :=
    fun j₁ h j' hj' => List.mem_singleton.1 hj' ▸ h
  cases h with
  | proposeFirst p hp => exact ⟨hone (.replay p) hj, ⟨hs.unHandlePropose, hs.unHandleFinVote⟩⟩
  | proposeWait p qc hp hqc hne =>
    refine ⟨by simp, ⟨fun p' hp' => ?_, hs.unHandleFinVote⟩⟩
    rcases List.mem_append.1 hp' with hp' | hp'
    · exact hs.unHandlePropose p' hp'
    · rw [List.mem_singleton.1 hp']
      exact Fits.second hm hj hp
  | proposeSecond p qc hp hqc heq =>
    exact ⟨hone (.replay p) hj, ⟨hs.unHandlePropose, hs.unHandleFinVote⟩⟩
  | proposeOther p hp₁ hp₂ => exact ⟨hone (.replay p) hj, hs⟩
  | replay p =>
    refine ⟨fun j' hj' => ?_, hs⟩
    rcases mem_waiting hj' with ⟨-, p', hp', rfl⟩ | ⟨-, fv, hfv, rfl⟩
    · exact Or.inr (hs.unHandlePropose p' hp')
    · exact hs.unHandleFinVote fv hfv
  | vote v hv =>
    refine ⟨fun j' hj' => ?_, ⟨hs.unHandlePropose, hs.unHandleFinVote⟩⟩
    split at hj'
    · exact hone (.quorum v) hj j' hj'
    · exact absurd hj' List.not_mem_nil
  | finWait fv qc ha hv hqc hne =>
    refine ⟨by simp, ⟨hs.unHandlePropose, fun fv' hfv' => ?_⟩⟩
    rcases List.mem_append.1 hfv' with hfv' | hfv'
    · exact hs.unHandleFinVote fv' hfv'
    · rw [List.mem_singleton.1 hfv']
      exact hj
  | speedVote sv ha hv =>
    refine ⟨fun j' hj' => ?_, ⟨hs.unHandlePropose, hs.unHandleFinVote⟩⟩
    split at hj'
    · exact hone .speedCert trivial j' hj'
    · exact absurd hj' List.not_mem_nil
  | _ => exact ⟨by simp, ⟨hs.unHandlePropose, hs.unHandleFinVote⟩⟩

theorem fits_jobs : ∀ j ∈ m.jobs, Fits m k j := by
  intro j hj
  simp only [FinInputs.jobs, List.mem_append, List.mem_cons, List.mem_map, List.not_mem_nil, or_false] at hj
  rcases hj with (((rfl | rfl | rfl) | ⟨v, hv, rfl⟩) | ⟨v, hv, rfl⟩) | ⟨sv, hsv, rfl⟩
  · exact Or.inl rfl
  · exact Or.inr rfl
  · exact rfl
  · exact (hm.votes₁ v hv).1.trans_le (by decide)
  · exact (hm.votes₂ v hv).1.le
  · exact hm.speedVotes sv hsv

theorem guarded : Guarded (SPB.new E) (JobStep E self) k (fun l => l.Subperm m.jobs) (Fits m k)
    (FitBuffers m) where
  earlier _ _ h := (List.sublist_append_left _ _).subperm.trans h
  comes _ h j hj := fits_jobs hm j (h.subset hj)
  start := ⟨by simp [SPB.new], by simp [SPB.new]⟩
  keeps _ _ _ _ _ hj hs h := h.fits hm hj hs

end Fits

/-! ## Proposals -/

/-- The goroutines of instance `k`, with a log of the jobs that were done and of what each sent. -/
abbrev serving (E : Env D) (self : NodeID) (k : Key) :
    PoolCode Key (SPB D) (SpbJob D) (SpbJob D) (SpbJob D × List (NodeOut D)) :=
  PoolCode.logged (SPB.new E) (JobStep E self) k

/-- The job replays the buffer of a height and sends the vote. -/
@[simp] def isReplay (height : ℕ) : SpbJob D → Bool
  | .replay p => decide (p.height = height)
  | _ => false

section Books

variable {E : Env D} {self : NodeID} {k : Key} {h₁ h₂ : D} {m : FinInputs D}
  {x : Pool Key (SPB D) (SpbJob D) (SpbJob D) (SpbJob D × List (NodeOut D))}

/-- The proposal of the height has been recorded. -/
def Recorded (E : Env D) (m : FinInputs D) (height : ℕ) (s : SPB D) : Prop :=
  (height = HEIGHT_1 → s.preQc = m.first.b.qc ∧ s.blockHash HEIGHT_1 = m.first.b.hash E) ∧
    (height = HEIGHT_2 →
      s.blockQcs HEIGHT_1 = m.second.b.qc ∧ s.blockHash HEIGHT_2 = m.second.b.hash E)

variable (hm : m.For E k h₁ h₂)

include hm

theorem JobStep.recorded {s s' : SPB D} {j : SpbJob D} {js : List (SpbJob D)}
    {os : List (NodeOut D)} (hj : Fits m k j) (h : JobStep E self k s j s' js os) {height : ℕ}
    (hs : Recorded E m height s) : Recorded E m height s' := by
  have hne : HEIGHT_1 ≠ HEIGHT_2 := by decide
  cases h with
  | proposeFirst p hp =>
    obtain rfl := Fits.first hm hj hp
    exact ⟨fun _ => ⟨rfl, by simp⟩, fun hh => by simpa [Function.update_of_ne hne.symm] using hs.2 hh⟩
  | proposeSecond p qc hp hqc heq =>
    obtain rfl := Fits.second hm hj hp
    exact ⟨fun hh => by simpa [Function.update_of_ne hne] using hs.1 hh,
      fun _ => ⟨by simp [hqc], by simp⟩⟩
  | finAccept fv qc ha hv hqc heq =>
    exact ⟨hs.1, fun hh => by simpa [Function.update_of_ne hne] using hs.2 hh⟩
  | _ => exact hs

theorem JobStep.recorded_of_replay {s s' : SPB D} {j : SpbJob D} {js : List (SpbJob D)}
    {os : List (NodeOut D)} (hj : Fits m k j) (h : JobStep E self k s j s' js os) {height : ℕ}
    {j' : SpbJob D} (hj' : j' ∈ js) (hq : isReplay height j' = true) : Recorded E m height s' := by
  have hone : ∀ p : ProposeMsg D, j' ∈ [SpbJob.replay p] → p.height = height := by
    intro p hp
    rw [List.mem_singleton.1 hp] at hq
    exact of_decide_eq_true hq
  cases h with
  | proposeFirst p hp =>
    obtain rfl := Fits.first hm hj hp
    refine ⟨fun _ => ⟨rfl, by simp⟩, fun hh => ?_⟩
    rw [← hone _ hj', hp] at hh
    cases hh
  | proposeSecond p qc hp hqc heq =>
    obtain rfl := Fits.second hm hj hp
    refine ⟨fun hh => ?_, fun _ => ⟨by simp [hqc], by simp⟩⟩
    rw [← hone _ hj', hp] at hh
    cases hh
  | proposeOther p hp₁ hp₂ => exact absurd (Fits.height hm hj) (not_or.2 ⟨hp₁, hp₂⟩)
  | replay p => rcases mem_waiting hj' with ⟨-, p, -, rfl⟩ | ⟨-, fv, -, rfl⟩ <;> simp at hq
  | vote v hv => split at hj' <;> simp_all
  | speedVote sv ha hv => split at hj' <;> simp_all
  | _ => simp_all

omit hm in
theorem not_handed {Q : SpbJob D → Bool} (hp : ∀ p, Q (.propose p) = false)
    (hv : ∀ v, Q (.vote v) = false) (hf : ∀ fv, Q (.finVote fv) = false)
    (hs : ∀ sv, Q (.speedVote sv) = false) :
    ∀ l : List (SpbJob D), l.Subperm m.jobs → ∀ j ∈ l, Q j = false := by
  intro l hl j hj
  have hj := hl.subset hj
  simp only [FinInputs.jobs, List.mem_append, List.mem_cons, List.mem_map, List.not_mem_nil, or_false] at hj
  rcases hj with (((rfl | rfl | rfl) | ⟨v, -, rfl⟩) | ⟨v, -, rfl⟩) | ⟨sv, -, rfl⟩
  · exact hp _
  · exact hp _
  · exact hf _
  · exact hv v
  · exact hv v
  · exact hs sv

theorem recorded_of_replayed (hx : (serving E self k).Serves x) (hr : x.received.Subperm m.jobs) {height : ℕ}
    (h : x.outs.countP (entryOf (isReplay height)) ≠ 0) : Recorded E m height (x.inst k) := by
  refine (guarded hm).witnessed (Q := isReplay height) (O := entryOf (isReplay height))
    (not_handed (fun _ => rfl) (fun _ => rfl) (fun _ => rfl) fun _ => rfl)
    (fun s j s' js os hj hstep hs => hstep.recorded hm hj hs) ?_ hx.run hr
    (List.countP_pos_iff.1 (Nat.pos_of_ne_zero h))
  rintro s j s' js os hj hstep (⟨j', hj', hq⟩ | hq)
  · exact Or.inl (hstep.recorded_of_replay hm hj hj' hq)
  · exact Or.inr hq

theorem replays_first (hx : (serving E self k).Serves x) (hr : x.received.Subperm m.jobs) :
    pending x.tasks k (toVote HEIGHT_1) + x.outs.countP (entryOf (isReplay HEIGHT_1)) =
      x.received.countP (toVote HEIGHT_1) := by
  have h := (guarded hm).books (W := fun _ _ => 0) (K := fun _ => 0) (Q := toVote HEIGHT_1)
    (O := entryOf (isReplay HEIGHT_1)) (P := toVote HEIGHT_1) rfl (fun _ _ _ _ => rfl) ?_ hx hr
  · simpa using h
  · intro x hx hr j s' js os hj hfit hbuf hstep _
    cases hstep with
    | crash _ hp => exact absurd hp (hfit.not_panics hm)
    | proposeWait p qc hp hqc hne => simp [hp, entryOf]
    | replay p =>
      rw [countP_waiting (fun _ p hp => by simp [hbuf.unHandlePropose p hp, hm.second.1]) fun _ _ _ => rfl]
      simp [entryOf]
    | _ => simp [entryOf]

/-- The height-2 proposal only waits where the buffer of height 1 has not been replayed, -/
theorem not_replayed_first (hx : (serving E self k).Serves x) (hr : x.received.Subperm m.jobs)
    {p : ProposeMsg D} {qc : BlockQC D} (hj : Fits m k (.propose p)) (hp : p.height = HEIGHT_2)
    (hqc : p.b.qc = some qc) (hne : (x.inst k).blockHash HEIGHT_1 ≠ qc.parentBlockHash) :
    x.outs.countP (entryOf (isReplay HEIGHT_1)) = 0 := by
  by_contra h
  obtain ⟨qc', hqc', hparent⟩ := hm.parent
  obtain rfl : qc' = qc := by
    rw [Fits.second hm hj hp, hqc'] at hqc
    exact Option.some.inj hqc
  have hhash := ((recorded_of_replayed hm hx hr h).1 rfl).2
  exact hne (hhash.trans (hm.first.2.trans hparent.symm))

/-- which is replayed once. -/
theorem replay_first_once (hx : (serving E self k).Serves x) (hr : x.received.Subperm m.jobs)
    (hpos : 0 < pending x.tasks k (toVote HEIGHT_1)) :
    x.outs.countP (entryOf (isReplay HEIGHT_1)) = 0 := by
  have hfirst := replays_first hm hx hr
  have hle := (hr.countP_le _).trans hm.countP_first.le
  omega

/-- The height-2 proposal is with a goroutine, or waits for the replay of height 1, until its buffer is
replayed. -/
theorem replays_second (hx : (serving E self k).Serves x) (hr : x.received.Subperm m.jobs) :
    (if x.outs.countP (entryOf (isReplay HEIGHT_1)) = 0 then (x.inst k).unHandlePropose.length else 0) +
      pending x.tasks k (toVote HEIGHT_2) + x.outs.countP (entryOf (isReplay HEIGHT_2)) =
      x.received.countP (toVote HEIGHT_2) := by
  refine (guarded hm).books (W := fun log s => if log.countP (entryOf (isReplay HEIGHT_1)) = 0 then
      s.unHandlePropose.length else 0) (K := fun _ => 0) (Q := toVote HEIGHT_2)
    (O := entryOf (isReplay HEIGHT_2)) (P := toVote HEIGHT_2) rfl (fun _ _ _ _ => rfl) ?_ hx hr
  intro x hx hr j s' js os hj hfit hbuf hstep _
  obtain ⟨n, hn⟩ : ∃ n, x.outs.countP (entryOf (isReplay HEIGHT_1)) = n := ⟨_, rfl⟩
  rw [countP_entryOf_append, hn]
  cases hstep with
  | crash _ hp => exact absurd hp (hfit.not_panics hm)
  | proposeFirst p hp => simp [hp, entryOf]
  | proposeWait p qc hp hqc hne =>
    have hnone : n = 0 := hn ▸ not_replayed_first hm hx hr hfit hp hqc hne
    simp [hnone, hp, entryOf]
  | replay p =>
    by_cases hp : p.height = HEIGHT_1
    · have hnone : n = 0 := hn ▸ replay_first_once hm hx hr (pending_pos hj (by simp [hp]))
      have hw : (waiting (x.inst k) HEIGHT_1).countP (toVote HEIGHT_2) =
          (x.inst k).unHandlePropose.length := by
        rw [waiting, if_pos rfl, List.countP_map]
        exact List.countP_eq_length.2 fun p hp => by simp [hbuf.unHandlePropose p hp, hm.second.1]
      simp [hp, hnone, hw, entryOf]
    · rw [countP_waiting (fun h => absurd h hp) fun _ _ _ => rfl]
      simp [hp, entryOf]
  | _ => simp [entryOf]

theorem replay_second_once (hx : (serving E self k).Serves x) (hr : x.received.Subperm m.jobs)
    (hpos : 0 < pending x.tasks k (toVote HEIGHT_2)) :
    x.outs.countP (entryOf (isReplay HEIGHT_2)) = 0 := by
  have hsecond := replays_second hm hx hr
  have hle := (hr.countP_le _).trans hm.countP_second.le
  omega

/-! ## The `FinVoteMsg` -/

/-- The certificate of a `FinVoteMsg` that was accepted with an entry of the log. -/
@[simp] def accepted : SpbJob D × List (NodeOut D) → Option (BlockQC D)
  | (.finVote fv, _ :: _) => fv.qc
  | _ => none

/-- The `FinVoteMsg` only waits where the buffer of height 2 has not been replayed. -/
theorem not_replayed_second (hx : (serving E self k).Serves x) (hr : x.received.Subperm m.jobs)
    {fv : FinVoteMsg D} {qc : BlockQC D} (hj : Fits m k (.finVote fv)) (hqc : fv.qc = some qc)
    (hne : (x.inst k).blockHash HEIGHT_2 ≠ qc.parentBlockHash) :
    x.outs.countP (entryOf (isReplay HEIGHT_2)) = 0 := by
  by_contra h
  obtain ⟨qc', hqc', hparent⟩ := hm.finParent
  obtain rfl : qc' = qc := by
    rw [hj, hqc'] at hqc
    exact Option.some.inj hqc
  have hhash := ((recorded_of_replayed hm hx hr h).2 rfl).2
  exact hne (hhash.trans (hm.second.2.trans hparent.symm))

/-- The `FinVoteMsg` is with a goroutine, or waits for the replay of height 2, until it is accepted. -/
theorem fin_accepted (hx : (serving E self k).Serves x) (hr : x.received.Subperm m.jobs) :
    (if x.outs.countP (entryOf (isReplay HEIGHT_2)) = 0 then (x.inst k).unHandleFinVote.length else 0) +
      pending x.tasks k toFinVote + x.outs.countP (fun e => (accepted e).isSome) =
      x.received.countP toFinVote := by
  refine (guarded hm).books (W := fun log s => if log.countP (entryOf (isReplay HEIGHT_2)) = 0 then
      s.unHandleFinVote.length else 0) (K := fun _ => 0) (Q := toFinVote)
    (O := fun e => (accepted e).isSome) (P := toFinVote) rfl (fun _ _ _ _ => rfl) ?_ hx hr
  intro x hx hr j s' js os hj hfit hbuf hstep _
  obtain ⟨n, hn⟩ : ∃ n, x.outs.countP (entryOf (isReplay HEIGHT_2)) = n := ⟨_, rfl⟩
  rw [countP_entryOf_append, hn]
  cases hstep with
  | crash _ hp => exact absurd hp (hfit.not_panics hm)
  | replay p =>
    by_cases hp : p.height = HEIGHT_2
    · have hnone : n = 0 := hn ▸ replay_second_once hm hx hr (pending_pos hj (by simp [hp]))
      have hw : (waiting (x.inst k) HEIGHT_2).countP toFinVote =
          (x.inst k).unHandleFinVote.length := by
        rw [waiting, if_neg (by decide), if_pos rfl, List.countP_map]
        exact List.countP_eq_length.2 fun _ _ => rfl
      simp [hp, hnone, hw]
    · rw [countP_waiting (fun _ _ _ => rfl) fun h => absurd h hp]
      simp [hp]
  | finDrop fv hd =>
    rw [hfit] at hd
    rcases hd with ha | hv
    · exact absurd hm.fin.1 ha
    · exact absurd hm.fin.2 hv
  | finWait fv qc ha hv hqc hne =>
    have hnone : n = 0 := hn ▸ not_replayed_second hm hx hr hfit hqc hne
    simp [hnone]
  | finAccept fv qc ha hv hqc heq => simp [hqc]
  | _ => simp

theorem blockQcs_of_accepted (hx : (serving E self k).Serves x) (hr : x.received.Subperm m.jobs)
    (h : x.outs.countP (fun e => (accepted e).isSome) ≠ 0) :
    (x.inst k).blockQcs HEIGHT_2 = m.fin.qc := by
  have hne : HEIGHT_2 ≠ HEIGHT_1 := by decide
  refine (guarded hm).witnessed (G := fun s => s.blockQcs HEIGHT_2 = m.fin.qc) (Q := fun _ => false)
    (O := fun e => (accepted e).isSome) (fun _ _ _ _ => rfl) ?_ ?_ hx.run hr
    (List.countP_pos_iff.1 (Nat.pos_of_ne_zero h))
  · intro s j s' js os hj hstep hs
    cases hstep with
    | proposeSecond p qc hp hqc heq => simpa [Function.update_of_ne hne] using hs
    | finAccept fv qc ha hv hqc heq => simp [← hqc, show fv = m.fin from hj]
    | _ => exact hs
  · intro s j s' js os hj hstep hnew
    cases hstep with
    | finAccept fv qc ha hv hqc heq => exact Or.inl (by simp [← hqc, show fv = m.fin from hj])
    | crash _ hp => exact absurd hp (hj.not_panics hm)
    | _ => simp at hnew

/-! ## Votes and speed votes -/

theorem votes_counted (hx : (serving E self k).Serves x) (hr : x.received.Subperm m.jobs) (height : ℕ) :
    (x.inst k).voteNums height + pending x.tasks k (toCount height) =
      x.received.countP (toCount height) := by
  have h := (guarded hm).books (W := fun _ s => s.voteNums height) (K := fun _ => 0)
    (Q := toCount height) (O := fun _ => false) (P := toCount height) rfl (fun _ _ _ _ => rfl) ?_ hx hr
  · simpa using h
  · intro x hx hr j s' js os hj hfit hbuf hstep _
    cases hstep with
    | crash _ hp => exact absurd hp (hfit.not_panics hm)
    | vote v hv =>
      by_cases hh : v.height = height
      · subst hh
        simp
      · simp [hh, Function.update_of_ne (Ne.symm hh)]
    | replay p =>
      rw [countP_waiting (fun _ _ _ => rfl) fun _ _ _ => rfl]
      simp
    | _ => simp

/-- **A certificate of a height is made once**, with the vote that completes the quorum. -/
theorem certified_once (hx : (serving E self k).Serves x) (hr : x.received.Subperm m.jobs) (height : ℕ) :
    pending x.tasks k (toCertify height) + x.outs.countP (entryOf (toCertify height)) =
      if E.hightThreshold ≤ (x.inst k).voteNums height then 1 else 0 := by
  have h := (guarded hm).books (W := fun _ _ => 0)
    (K := fun s => if E.hightThreshold ≤ s.voteNums height then 1 else 0) (Q := toCertify height)
    (O := entryOf (toCertify height)) (P := fun _ => false) (by simp [SPB.new, Env.hightThreshold])
    (not_handed (fun _ => rfl) (fun _ => rfl) (fun _ => rfl) fun _ => rfl) ?_ hx hr
  · simpa using h
  · intro x hx hr j s' js os hj hfit hbuf hstep _
    cases hstep with
    | crash _ hp => exact absurd hp (hfit.not_panics hm)
    | vote v hv =>
      by_cases hh : v.height = height
      · subst hh
        have hc := crossing E.hightThreshold ((x.inst k).voteNums v.height)
        simp only [Function.update_self]
        rw [← hc]
        simp [entryOf]
      · simp [hh, Function.update_of_ne (Ne.symm hh), entryOf]
    | replay p =>
      rw [countP_waiting (fun _ _ _ => rfl) fun _ _ _ => rfl]
      simp [entryOf]
    | _ => simp [entryOf]

theorem speedVotes_counted (hx : (serving E self k).Serves x) (hr : x.received.Subperm m.jobs) :
    (x.inst k).speedVoteNums + pending x.tasks k toSpeedCount = x.received.countP toSpeedCount := by
  have h := (guarded hm).books (W := fun _ s => s.speedVoteNums) (K := fun _ => 0)
    (Q := toSpeedCount) (O := fun _ => false) (P := toSpeedCount) rfl (fun _ _ _ _ => rfl) ?_ hx hr
  · simpa using h
  · intro x hx hr j s' js os hj hfit hbuf hstep _
    cases hstep with
    | crash _ hp => exact absurd hp (hfit.not_panics hm)
    | replay p =>
      rw [countP_waiting (fun _ _ _ => rfl) fun _ _ _ => rfl]
      simp
    | speedDrop sv hd =>
      rcases hd with ha | hv
      · exact absurd hfit.1 ha
      · exact absurd hfit.2 hv
    | _ => simp

theorem speedCert_once (hx : (serving E self k).Serves x) (hr : x.received.Subperm m.jobs) :
    (x.inst k).isSpeedCert.toNat + pending x.tasks k (fun j => decide (j = .speedCert)) =
      if E.hightThreshold ≤ (x.inst k).speedVoteNums then 1 else 0 := by
  have h := (guarded hm).books (W := fun _ s => s.isSpeedCert.toNat)
    (K := fun s => if E.hightThreshold ≤ s.speedVoteNums then 1 else 0)
    (Q := fun j => decide (j = .speedCert)) (O := fun _ => false) (P := fun _ => false)
    (by simp [SPB.new, Env.hightThreshold])
    (not_handed (fun _ => rfl) (fun _ => rfl) (fun _ => rfl) fun _ => rfl) ?_ hx hr
  · simpa using h
  · intro x hx hr j s' js os hj hfit hbuf hstep ih
    cases hstep with
    | crash _ hp => exact absurd hp (hfit.not_panics hm)
    | replay p =>
      rw [countP_waiting (fun _ _ _ => rfl) fun _ _ _ => rfl]
      simp
    | speedVote sv ha hv =>
      have hc := crossing E.hightThreshold (x.inst k).speedVoteNums
      rw [← hc]
      simp [Nat.add_assoc]
    | speedCert =>
      have hpos : 0 < pending x.tasks k (fun j => decide (j = .speedCert)) := pending_pos hj rfl
      have hzero : (x.inst k).isSpeedCert.toNat = 0 := by
        split at ih <;> simp at ih <;> omega
      simp [hzero]
    | _ => simp

end Books

/-! ## What is sent -/

/-- The proposal whose buffer is replayed with an entry of the log. -/
@[simp] def replayed : SpbJob D × List (NodeOut D) → Option (ProposeMsg D)
  | (.replay p, _) => some p
  | _ => none

@[simp] def isVoteMsg : Msg D → Bool
  | .vote _ => true
  | _ => false

@[simp] def isSpeedVoteMsg : Msg D → Bool
  | .speedVote _ => true
  | _ => false

@[simp] def isSecondProposeMsg : Msg D → Bool
  | .propose p => decide (p.height = HEIGHT_2)
  | _ => false

@[simp] def isFinVoteMsg : Msg D → Bool
  | .finVote _ => true
  | _ => false

section Sent

variable {E : Env D} {self : NodeID} {k : Key} {h₁ h₂ : D} {m : FinInputs D} {s s' : SPB D}
  {j : SpbJob D} {js : List (SpbJob D)} {os : List (NodeOut D)}

theorem JobStep.filter_votes (h : JobStep E self k s j s' js os) :
    os.filter (Out.carries isVoteMsg) =
      (replayed (j, os)).toList.map fun p => .to k.2 (.vote (newVoteMsg E self p.b)) := by
  cases h with
  | crash _ hp => cases j <;> first | rfl | exact hp.elim
  | _ => simp

theorem JobStep.filter_speedVotes (h : JobStep E self k s j s' js os) :
    os.filter (Out.carries isSpeedVoteMsg) =
      (accepted (j, os)).toList.map fun qc => .to k.2 (.speedVote (newSpeedVoteMsg E self qc)) := by
  cases h with
  | crash _ hp => cases j <;> rfl
  | finAccept fv qc ha hv hqc heq => simp [hqc]
  | _ => simp

theorem JobStep.countP_proposals (h : JobStep E self k s j s' js os) :
    os.countP (Out.carries isSecondProposeMsg) = if toCertify HEIGHT_1 j then 1 else 0 := by
  cases h with
  | crash _ hp => cases j <;> first | rfl | exact hp.elim
  | quorumFirst v batch hv => simp [hv, newProposeMsg]
  | quorumSecond v hv => simp [hv]
  | _ => simp

theorem JobStep.countP_finVotes (hj : Fits m k j) (h : JobStep E self k s j s' js os) :
    os.countP (Out.carries isFinVoteMsg) = if toCertify HEIGHT_2 j then 1 else 0 := by
  cases h with
  | crash _ hp => cases j <;> first | rfl | exact hp.elim
  | quorumFirst v batch hv => simp [hv]
  | quorumSecond v hv =>
    have hv : v.height = HEIGHT_2 := (height_cases hj).resolve_left hv
    simp [hv]
  | _ => simp

end Sent

/-! ## Coming to rest -/

/-- The buffer of a height has not been replayed. -/
def early (log : List (SpbJob D × List (NodeOut D))) (height : ℕ) : Bool :=
  decide (log.countP (entryOf (isReplay height)) = 0)

/-- A bound on the steps of a goroutine and of what comes of it; `early₁` and `early₂` say whether the
buffers have still to be replayed. What is replayed is not counted here. -/
def rank (early₁ early₂ : Bool) : SpbJob D → ℕ
  | .propose p => if p.height = HEIGHT_2 ∧ early₁ = true then 4 else 2
  | .replay _ => 1
  | .vote _ => 2
  | .quorum _ => 1
  | .finVote _ => if early₂ = true then 3 else 1
  | .speedVote _ => 2
  | .speedCert => 1

/-- The steps that the messages in the buffers may still cause. -/
def buffered (early₁ early₂ : Bool) (s : SPB D) : ℕ :=
  (if early₁ = true then 3 * s.unHandlePropose.length else 0) +
    if early₂ = true then 2 * s.unHandleFinVote.length else 0

/-- **A bound on the steps that the goroutines can still take.** -/
def remaining (k : Key) (x : Pool Key (SPB D) (SpbJob D) (SpbJob D) (SpbJob D × List (NodeOut D))) : ℕ :=
  load (rank (early x.outs HEIGHT_1) (early x.outs HEIGHT_2)) x.tasks +
    buffered (early x.outs HEIGHT_1) (early x.outs HEIGHT_2) (x.inst k)

theorem rank_mono {e₁ e₁' e₂ e₂' : Bool} (h₁ : e₁' = true → e₁ = true) (h₂ : e₂' = true → e₂ = true)
    (j : SpbJob D) : rank e₁' e₂' j ≤ rank e₁ e₂ j := by
  cases j <;> cases e₁ <;> cases e₁' <;> cases e₂ <;> cases e₂' <;> simp_all [rank] <;> split <;> simp

theorem early_append (log : List (SpbJob D × List (NodeOut D))) (j : SpbJob D)
    (os : List (NodeOut D)) (height : ℕ) :
    early (log ++ [(j, os)]) height = (early log height && !isReplay height j) := by
  rw [early, early, countP_entryOf_append]
  cases isReplay height j <;> simp

section Falls

variable {E : Env D} {self : NodeID} {k : Key} {h₁ h₂ : D} {m : FinInputs D}
  {x : Pool Key (SPB D) (SpbJob D) (SpbJob D) (SpbJob D × List (NodeOut D))}

theorem JobStep.falls (hm : m.For E k h₁ h₂) (hx : (serving E self k).Serves x)
    (hr : x.received.Subperm m.jobs) {s' : SPB D} {j : SpbJob D} {js : List (SpbJob D)}
    {os : List (NodeOut D)} (hj : (k, j) ∈ x.tasks) (h : JobStep E self k (x.inst k) j s' js os)
    {e₁ e₂ : Bool} (he₁ : early x.outs HEIGHT_1 = e₁) (he₂ : early x.outs HEIGHT_2 = e₂) :
    (js.map (rank (e₁ && !isReplay HEIGHT_1 j) (e₂ && !isReplay HEIGHT_2 j))).sum +
        buffered (e₁ && !isReplay HEIGHT_1 j) (e₂ && !isReplay HEIGHT_2 j) s' <
      rank (e₁ && !isReplay HEIGHT_1 j) (e₂ && !isReplay HEIGHT_2 j) j + buffered e₁ e₂ (x.inst k) := by
  have hfit := ((guarded hm).fits hx.run hr).1 j hj
  cases h with
  | crash _ hp => exact absurd hp (hfit.not_panics hm)
  | proposeWait p qc hp hqc hne =>
    have he : e₁ = true := he₁ ▸ decide_eq_true (not_replayed_first hm hx hr hfit hp hqc hne)
    simp [he, hp, rank, buffered]
    omega
  | replay p =>
    rcases Fits.height hm (p := p) hfit with hp | hp
    · have honce := replay_first_once hm hx hr (pending_pos hj (by simp [hp]))
      have he : e₁ = true := he₁ ▸ decide_eq_true honce
      simp [waiting, hp, he, rank, buffered, Function.comp_def]
      omega
    · have honce := replay_second_once hm hx hr (pending_pos hj (by simp [hp]))
      have he : e₂ = true := he₂ ▸ decide_eq_true honce
      simp [waiting, hp, he, rank, buffered, Function.comp_def]
      omega
  | vote v hv => split <;> simp [rank, buffered]
  | speedVote sv ha hv => split <;> simp [rank, buffered]
  | finWait fv qc ha hv hqc hne =>
    have he : e₂ = true := he₂ ▸ decide_eq_true (not_replayed_second hm hx hr hfit hqc hne)
    simp [he, rank, buffered]
    omega
  | _ => simp [rank, buffered] <;> split <;> simp

/-- **The goroutines come to rest**: every step lowers the bound. -/
theorem remaining_falls (hm : m.For E k h₁ h₂) (hx : (serving E self k).Serves x)
    (hr : x.received.Subperm m.jobs) {i : ℕ} {s' : SPB D} {j : SpbJob D} {js : List (SpbJob D)}
    {os : List (NodeOut D)} (hi : x.tasks[i]? = some (k, j))
    (h : JobStep E self k (x.inst k) j s' js os) :
    remaining k ⟨Function.update x.inst k s', x.tasks.eraseIdx i ++ js.map (k, ·), x.received,
      x.outs ++ [(j, os)]⟩ < remaining k x := by
  have hfalls := h.falls hm hx hr (List.mem_of_getElem? hi) rfl rfl
  have hload := load_step (rank (early x.outs HEIGHT_1 && !isReplay HEIGHT_1 j)
    (early x.outs HEIGHT_2 && !isReplay HEIGHT_2 j)) hi js
  have hle : load (rank (early x.outs HEIGHT_1 && !isReplay HEIGHT_1 j)
      (early x.outs HEIGHT_2 && !isReplay HEIGHT_2 j)) x.tasks ≤
      load (rank (early x.outs HEIGHT_1) (early x.outs HEIGHT_2)) x.tasks :=
    load_le (rank_mono (fun h => (Bool.and_eq_true_iff.1 h).1) fun h => (Bool.and_eq_true_iff.1 h).1) _
  simp only [remaining, early_append, Function.update_self]
  omega

end Falls

/-! ## At rest -/

section Rest

variable {E : Env D} {self : NodeID} {k : Key} {h₁ h₂ : D} {m : FinInputs D}
  {x : Pool Key (SPB D) (SpbJob D) (SpbJob D) (SpbJob D × List (NodeOut D))}
  (hm : m.For E k h₁ h₂) (hx : (serving E self k).Serves x) (hr : x.received.Perm m.jobs)
  (hrest : x.tasks = [])

include hm hx hr hrest

theorem rest_replay_first : x.outs.countP (entryOf (isReplay HEIGHT_1)) = 1 := by
  have h := replays_first hm hx hr.subperm
  rw [hr.countP_eq, hm.countP_first] at h
  simpa [hrest, pending] using h

theorem rest_replay_second : x.outs.countP (entryOf (isReplay HEIGHT_2)) = 1 := by
  have h := replays_second hm hx hr.subperm
  rw [hr.countP_eq, hm.countP_second, rest_replay_first hm hx hr hrest, if_neg Nat.one_ne_zero] at h
  simpa [hrest, pending] using h

theorem rest_first :
    (x.inst k).preQc = m.first.b.qc ∧ (x.inst k).blockHash HEIGHT_1 = m.first.b.hash E := by
  have h : x.outs.countP (entryOf (isReplay HEIGHT_1)) ≠ 0 := by
    rw [rest_replay_first hm hx hr hrest]
    exact Nat.one_ne_zero
  exact (recorded_of_replayed hm hx hr.subperm h).1 rfl

theorem rest_second :
    (x.inst k).blockQcs HEIGHT_1 = m.second.b.qc ∧
      (x.inst k).blockHash HEIGHT_2 = m.second.b.hash E := by
  have h : x.outs.countP (entryOf (isReplay HEIGHT_2)) ≠ 0 := by
    rw [rest_replay_second hm hx hr hrest]
    exact Nat.one_ne_zero
  exact (recorded_of_replayed hm hx hr.subperm h).2 rfl

theorem rest_accepted : x.outs.countP (fun e => (accepted e).isSome) = 1 := by
  have h := fin_accepted hm hx hr.subperm
  rw [hr.countP_eq, hm.countP_fin, rest_replay_second hm hx hr hrest, if_neg Nat.one_ne_zero] at h
  simpa [hrest, pending] using h

theorem rest_fin : (x.inst k).blockQcs HEIGHT_2 = m.fin.qc := by
  have h := rest_accepted hm hx hr hrest
  exact blockQcs_of_accepted hm hx hr.subperm (by omega)

theorem rest_voteNums (height : ℕ) : (x.inst k).voteNums height = m.jobs.countP (toCount height) := by
  have h := votes_counted hm hx hr.subperm height
  rw [hr.countP_eq] at h
  simpa [hrest, pending] using h

theorem rest_certified (height : ℕ) : x.outs.countP (entryOf (toCertify height)) =
    if E.hightThreshold ≤ m.jobs.countP (toCount height) then 1 else 0 := by
  have h := certified_once hm hx hr.subperm height
  rw [rest_voteNums hm hx hr hrest] at h
  simpa [hrest, pending] using h

theorem rest_speedVoteNums : (x.inst k).speedVoteNums = m.speedVotes.length := by
  have h := speedVotes_counted hm hx hr.subperm
  rw [hr.countP_eq, hm.countP_speed] at h
  simpa [hrest, pending] using h

theorem rest_speedCert :
    (x.inst k).isSpeedCert = true ↔ E.hightThreshold ≤ m.speedVotes.length := by
  have h := speedCert_once hm hx hr.subperm
  rw [rest_speedVoteNums hm hx hr hrest] at h
  simp only [hrest, pending, List.countP_nil, Nat.add_zero] at h
  cases hs : (x.inst k).isSpeedCert <;> rw [hs] at h <;> split at h <;> simp_all

theorem rest_replayed : (x.outs.filterMap replayed).Perm [m.first, m.second] := by
  have hfits : ∀ p ∈ x.outs.filterMap replayed, Fits m k (.propose p) := by
    intro p hp
    obtain ⟨⟨j, os⟩, he, hre⟩ := List.mem_filterMap.1 hp
    have hfit := (((guarded hm).fits hx.run hr.subperm).2.2 _ he).1
    cases j with
    | replay p' => cases hre; exact hfit
    | _ => cases hre
  have hcount : ∀ (P : ProposeMsg D → Bool) (height : ℕ),
      (∀ p, Fits m k (.propose p) → P p = decide (p.height = height)) →
      (x.outs.filterMap replayed).countP P = x.outs.countP (entryOf (isReplay height)) := by
    intro P height hP
    rw [List.countP_congr fun p hp => by rw [hP p (hfits p hp)], List.countP_filterMap]
    refine List.countP_congr fun e _ => ?_
    obtain ⟨j, os⟩ := e
    cases j <;> simp [entryOf]
  refine perm_pair (P := fun p => decide (p.height = HEIGHT_1)) ?_ ?_ ?_ ?_
  · exact fun p hp h => Fits.first hm (hfits p hp) (of_decide_eq_true h)
  · intro p hp h
    exact Fits.second hm (hfits p hp)
      ((Fits.height hm (hfits p hp)).resolve_left (of_decide_eq_false h))
  · rw [hcount _ HEIGHT_1 fun _ _ => rfl, rest_replay_first hm hx hr hrest]
  · rw [hcount _ HEIGHT_2 fun p hp => ?_, rest_replay_second hm hx hr hrest]
    rcases Fits.height hm hp with h | h <;> rw [h] <;> rfl

theorem rest_acceptedQc : x.outs.filterMap accepted = m.fin.qc.toList := by
  have hlen : (x.outs.filterMap accepted).length = 1 := by
    rw [List.length_filterMap_eq_countP, rest_accepted hm hx hr hrest]
  obtain ⟨qc, hqc⟩ := List.length_eq_one_iff.1 hlen
  obtain ⟨⟨j, os⟩, he, hacc⟩ := List.mem_filterMap.1 (hqc ▸ List.mem_singleton_self qc)
  have hfit := (((guarded hm).fits hx.run hr.subperm).2.2 _ he).1
  rw [hqc]
  unfold accepted at hacc
  split at hacc
  · next heq =>
    cases heq
    rw [← show _ = m.fin from hfit, hacc]
    rfl
  · cases hacc

end Rest

end Core

end S2Pac
