import S2Pac.Bench
import S2Pac.BigSPB.Buffers

/-!
# An instance of the big protocols at work

The courses of an instance with the goroutines of the big protocol and of the DAG variant. When all
messages have been handed over and no goroutine is left, the state and what was sent do not depend on the
order.
-/

set_option linter.unusedSectionVars false

namespace S2Pac

open Lib

variable {D : Type} [DecidableEq D]

namespace BigSPB

/-- The code of the goroutines does the jobs by the rules. -/
def Abides (E : Env D) (me : NodeID) (V : Rules D)
    (run : BigNode D → Key → BigJob D → Option (BigMoved D)) : Prop :=
  ∀ c k j r, run c k j = some r → Does E me V c k j r

theorem calls_eq (k : Key) (j : BigJob D) :
    calls k j = List.replicate (if isNext false j then 1 else 0) k := by
  cases j <;> rfl

/-! ## The books of a course -/

section Course

variable {E : Env D} {self : NodeID} {V : Rules D} {k : Key} {plan : ℕ → ProposeMsg D}
  {run : BigNode D → Key → BigJob D → Option (BigMoved D)} {b : Bench D (BigJob D)}

/-- **A course is a run of the goroutines of its instance**: the log says what was sent and how many
callbacks there were. -/
theorem serves_of_course (hW : Abides E self V run) (hb : Bench.Course run E self k b) :
    ∃ log, (serving E self V k).Serves ⟨b.node.spbInstances, b.node.tasks, b.handed, log⟩ ∧
      b.outs = log.flatMap Prod.snd ∧
      b.taken ++ b.node.callBackSpb = List.replicate (log.countP (done (isNext false))) k := by
  induction hb with
  | start => exact ⟨[], PoolCode.Serves.start, rfl, rfl⟩
  | hand j _ ih =>
    obtain ⟨log, hs, hlog, hcb⟩ := ih
    exact ⟨log, hs.recv j, hlog, hcb⟩
  | @work b _ _ hstep ih =>
    obtain ⟨log, hs, hlog, hcb⟩ := ih
    obtain @⟨i, k', j, r, hi, hr⟩ := hstep
    obtain ⟨s, js, hstep, hwork⟩ := hW _ _ _ _ hr
    obtain rfl : k' = k := hs.run.key logged_key _ (List.mem_of_getElem? hi)
    have hjob := hs.job hi ⟨r.2, hstep, rfl⟩
    refine ⟨log ++ [(j, r.2)], ?_, ?_, ?_⟩
    · dsimp only
      rw [hwork.spb, hwork.tasks]
      exact hjob
    · simp [hlog]
    · have hcalls := hwork.callBackSpb
      dsimp only at hcalls ⊢
      rw [hcalls, calls_eq, ← List.append_assoc, hcb, countP_done_append, List.replicate_add]
  | @callback b k' rest _ hrest ih =>
    obtain ⟨log, hs, hlog, hcb⟩ := ih
    refine ⟨log, hs, hlog, ?_⟩
    rw [← hcb, hrest]
    simp
  | makeBatch txs _ ih => exact ih

theorem not_crashed_of_course (hW : Abides E self V run) (hb : Bench.Course run E self k b)
    (hin : Intake E V k plan b.handed) : b.node.crashed = false := by
  induction hb with
  | start => rfl
  | hand j _ ih => exact ih hin.init
  | @work b _ hb hstep ih =>
    obtain @⟨i, k', j, r, hi, hr⟩ := hstep
    obtain ⟨log, hs, -, -⟩ := serves_of_course hW hb
    obtain rfl : k' = k := hs.run.key logged_key _ (List.mem_of_getElem? hi)
    have hfit := (serving_fits hs.run hin).1 j (List.mem_of_getElem? hi)
    obtain ⟨_, _, -, hwork⟩ := hW _ _ _ _ hr
    rcases hwork.crashed with hp | hc
    · exact absurd hp hfit.not_panics
    · exact hc.trans (ih hin)
  | callback _ _ ih => exact ih hin
  | makeBatch txs _ ih => exact ih hin

end Course

/-! ## The messages of an instance -/

end BigSPB

namespace Inputs

open BigSPB

/-- The goroutines that the messages are handed to, each once. -/
def jobs (m : Inputs D) : List (BigJob D) :=
  [.propose m.first, .propose m.second] ++ m.votes₁.map .vote ++ m.votes₂.map .vote ++
    m.speedVotes.map .speedVote

def plan (m : Inputs D) (height : ℕ) : ProposeMsg D := if height = HEIGHT_1 then m.first else m.second

/-- **The messages go together**: the votes are for the blocks of the proposals, which have the hashes
`h₁` and `h₂`, and the speed votes for instance `k`. -/
structure For (E : Env D) (k : Key) (h₁ h₂ : D) (m : Inputs D) : Prop where
  first : m.first.height = HEIGHT_1 ∧ m.first.b.hash E = h₁
  second : m.second.height = HEIGHT_2 ∧ m.second.b.hash E = h₂
  votes₁ : ∀ v ∈ m.votes₁, v.height = HEIGHT_1 ∧ v.blockHash = h₁
  votes₂ : ∀ v ∈ m.votes₂, v.height = HEIGHT_2 ∧ v.blockHash = h₂
  speedVotes : ∀ sv ∈ m.speedVotes, sv.proposer = k.2 ∧ sv.view = k.1

variable {E : Env D} {V : Rules D} {k : Key} {h₁ h₂ : D} {m : Inputs D}

theorem For.countP_jobs (hm : m.For E k h₁ h₂) {Q : BigJob D → Bool} {q₁ q₂ r₁ r₂ r₃ : Bool}
    (hp₁ : Q (.propose m.first) = q₁) (hp₂ : Q (.propose m.second) = q₂)
    (hv₁ : ∀ v : VoteMsg D, v.height = HEIGHT_1 → Q (.vote v) = r₁)
    (hv₂ : ∀ v : VoteMsg D, v.height = HEIGHT_2 → Q (.vote v) = r₂)
    (hs : ∀ sv : SpeedVoteMsg D, sv.proposer = k.2 → sv.view = k.1 → Q (.speedVote sv) = r₃) :
    m.jobs.countP Q = q₁.toNat + q₂.toNat + r₁.toNat * m.votes₁.length +
      r₂.toNat * m.votes₂.length + r₃.toNat * m.speedVotes.length := by
  rw [jobs, List.countP_append, List.countP_append, List.countP_append,
    countP_map_const fun v hv => hv₁ v (hm.votes₁ v hv).1,
    countP_map_const fun v hv => hv₂ v (hm.votes₂ v hv).1,
    countP_map_const fun sv hsv => hs sv (hm.speedVotes sv hsv).1 (hm.speedVotes sv hsv).2]
  simp only [List.countP_cons, List.countP_nil, hp₁, hp₂]
  cases q₁ <;> cases q₂ <;> rfl

theorem For.countP_toVote (hm : m.For E k h₁ h₂) {height : ℕ} (hh : height ≤ HEIGHT_2) :
    m.jobs.countP (toVote height) = 1 := by
  rcases height_cases hh with rfl | rfl
  · rw [hm.countP_jobs (decide_eq_true hm.first.1) (decide_eq_false (by rw [hm.second.1]; decide))
      (fun _ _ => rfl) (fun _ _ => rfl) fun _ _ _ => rfl]
    simp
  · rw [hm.countP_jobs (decide_eq_false (by rw [hm.first.1]; decide)) (decide_eq_true hm.second.1)
      (fun _ _ => rfl) (fun _ _ => rfl) fun _ _ _ => rfl]
    simp

theorem For.countP_first (hm : m.For E k h₁ h₂) :
    m.jobs.countP (toCount HEIGHT_1) = m.votes₁.length := by
  rw [hm.countP_jobs rfl rfl (fun _ h => decide_eq_true h)
    (fun _ h => decide_eq_false (by rw [h]; decide)) fun _ _ _ => rfl]
  simp

theorem For.countP_second (hm : m.For E k h₁ h₂) :
    m.jobs.countP (toCount HEIGHT_2) = m.votes₂.length := by
  rw [hm.countP_jobs rfl rfl (fun _ h => decide_eq_false (by rw [h]; decide))
    (fun _ h => decide_eq_true h) fun _ _ _ => rfl]
  simp

theorem For.countP_speed (hm : m.For E k h₁ h₂) :
    m.jobs.countP (toSpeedCount k) = m.speedVotes.length := by
  rw [hm.countP_jobs rfl rfl (fun _ _ => rfl) (fun _ _ => rfl)
    fun _ hp hv => decide_eq_true (Prod.ext hv hp)]
  simp

theorem For.fits (hm : m.For E k h₁ h₂) (hfollows : Follows E V m.plan m.second.b) :
    ∀ j ∈ m.jobs, isMessage j = true ∧ Fits E V k m.plan j := by
  have hp₁ : m.plan HEIGHT_1 = m.first := rfl
  have hp₂ : m.plan HEIGHT_2 = m.second := rfl
  have hne : HEIGHT_1 ≠ HEIGHT_2 := by decide
  intro j hj
  simp only [jobs, List.mem_append, List.mem_cons, List.mem_map, List.not_mem_nil, or_false] at hj
  rcases hj with (((rfl | rfl) | ⟨v, hv, rfl⟩) | ⟨v, hv, rfl⟩) | ⟨sv, hsv, rfl⟩
  · refine ⟨rfl, ?_, ?_, fun h => absurd (hm.first.1.symm.trans h) hne⟩
    · rw [hm.first.1]
      decide
    · rw [hm.first.1, hp₁]
  · refine ⟨rfl, hm.second.1.le, ?_, fun _ => hfollows⟩
    rw [hm.second.1, hp₂]
  · obtain ⟨hh, hb⟩ := hm.votes₁ v hv
    refine ⟨rfl, ?_, ?_⟩
    · rw [hh]
      decide
    · rw [hh, hb, planned, hp₁, hm.first.2]
  · obtain ⟨hh, hb⟩ := hm.votes₂ v hv
    refine ⟨rfl, hh.le, ?_⟩
    rw [hh, hb, planned, hp₂, hm.second.2]
  · exact ⟨rfl, hm.speedVotes sv hsv⟩

theorem For.intake (hm : m.For E k h₁ h₂) (hfollows : Follows E V m.plan m.second.b)
    {l : List (BigJob D)} (hl : l.Perm m.jobs) : Intake E V k m.plan l where
  isMessage j hj := (hm.fits hfollows j (hl.mem_iff.1 hj)).1
  fits j hj := (hm.fits hfollows j (hl.mem_iff.1 hj)).2
  once height := by
    rw [hl.countP_eq]
    by_cases hh : height ≤ HEIGHT_2
    · exact (hm.countP_toVote hh).le
    · have hne : HEIGHT_1 ≠ height ∧ HEIGHT_2 ≠ height := by
        simp only [HEIGHT_1, HEIGHT_2] at *
        omega
      rw [hm.countP_jobs (decide_eq_false (by rw [hm.first.1]; exact hne.1))
        (decide_eq_false (by rw [hm.second.1]; exact hne.2)) (fun _ _ => rfl) (fun _ _ => rfl)
        fun _ _ _ => rfl]
      simp

end Inputs

namespace BigSPB

/-! ## The end of a course -/

/-- **How an instance ends** when it was handed the messages `m`. -/
structure Outcome (E : Env D) (me : NodeID) (k : Key) (h₁ h₂ : D) (m : Inputs D) (b : Bench D (BigJob D)) :
    Prop where
  crashed : b.node.crashed = false
  blockHash : (b.node.spbInstances k).blockHash HEIGHT_1 = h₁ ∧
    (b.node.spbInstances k).blockHash HEIGHT_2 = h₂
  voteNums : (b.node.spbInstances k).voteNums HEIGHT_1 = m.votes₁.length ∧
    (b.node.spbInstances k).voteNums HEIGHT_2 = m.votes₂.length
  blockQcs : ((b.node.spbInstances k).blockQcs HEIGHT_1 ≠ none ↔
      E.hightThreshold ≤ m.votes₁.length) ∧
    ((b.node.spbInstances k).blockQcs HEIGHT_2 ≠ none ↔ E.hightThreshold ≤ m.votes₂.length)
  isSpeedCert : (b.node.spbInstances k).isSpeedCert = true ↔
    E.hightThreshold ≤ m.votes₂.length ∧ E.hightThreshold ≤ m.speedVotes.length
  votes : (b.outs.filter (Out.carries isVoteMsg)).Perm
    [.bcast (.vote (newVoteMsg E me m.first.b)), .bcast (.vote (newVoteMsg E me m.second.b))]
  speedVotes : b.outs.countP (Out.carries isSpeedVoteMsg) =
    if E.hightThreshold ≤ m.votes₂.length then 1 else 0

section Outcome

variable {E : Env D} {self : NodeID} {V : Rules D} {k : Key} {h₁ h₂ : D} {m : Inputs D}
  {run : BigNode D → Key → BigJob D → Option (BigMoved D)} {b : Bench D (BigJob D)}

/-- The end of a course, for both protocols; `n` and `n'` are the numbers of proposals and of
callbacks that follow a height-1 certificate. -/
theorem outcome_of_course (hW : Abides E self V run) (hb : Bench.Course run E self k b)
    (hm : m.For E k h₁ h₂) (hfollows : Follows E V m.plan m.second.b) (hl : b.handed.Perm m.jobs)
    (hrest : b.node.tasks = []) {n n' : ℕ}
    (hn : ∀ v, (V.next self k v).countP (isNext true) = n)
    (hn' : ∀ v, (V.next self k v).countP (isNext false) = n') :
    Outcome E self k h₁ h₂ m b ∧
      b.outs.countP (Out.carries isSecondProposeMsg) =
        (if E.hightThreshold ≤ m.votes₁.length then 1 else 0) * n ∧
      b.taken ++ b.node.callBackSpb =
        List.replicate ((if E.hightThreshold ≤ m.votes₁.length then 1 else 0) * n') k := by
  have hin := hm.intake hfollows hl
  obtain ⟨log, hs, hlog, hcb⟩ := serves_of_course hW hb
  have hone : ∀ height ≤ HEIGHT_2, b.handed.countP (toVote height) = 1 :=
    fun height hh => hl.countP_eq _ ▸ hm.countP_toVote hh
  have hsteps : ∀ e ∈ log, ∃ s s' js, JobStep E self V k s e.1 s' js e.2 :=
    fun e he => ((serving_fits hs.run hin).2.2 e he).2
  have hc₁ : b.handed.countP (toCount HEIGHT_1) = m.votes₁.length :=
    (hl.countP_eq _).trans hm.countP_first
  have hc₂ : b.handed.countP (toCount HEIGHT_2) = m.votes₂.length :=
    (hl.countP_eq _).trans hm.countP_second
  have hcs : b.handed.countP (toSpeedCount k) = m.speedVotes.length :=
    (hl.countP_eq _).trans hm.countP_speed
  have hle : HEIGHT_1 ≤ HEIGHT_2 := by decide
  have hqc := rest_blockQcs hs hin hrest hone hle
  have hspeed := certify_done hs hin HEIGHT_2
  rw [rest_blockQcs hs hin hrest hone le_rfl, hc₂] at hspeed
  -- nothing is pending, so that what follows a certificate has been done
  have hnext : ∀ {proposal : Bool} {n : ℕ}, (∀ v, (V.next self k v).countP (isNext proposal) = n) →
      log.countP (done (isNext proposal)) =
        (if E.hightThreshold ≤ m.votes₁.length then 1 else 0) * n := by
    intro proposal n hn
    have h := next_done hs hin hn
    rw [hqc, hc₁] at h
    simpa [hrest, pending] using h
  refine ⟨⟨not_crashed_of_course hW hb hin, ⟨?_, ?_⟩, ⟨?_, ?_⟩, ⟨?_, ?_⟩, ?_, ?_, ?_⟩, ?_, ?_⟩
  · rw [← hm.first.2]
    exact rest_blockHash hs hin hrest hone hle
  · rw [← hm.second.2]
    exact rest_blockHash hs hin hrest hone le_rfl
  · rw [← hc₁]
    exact rest_voteNums hs hin hrest hone hle
  · rw [← hc₂]
    exact rest_voteNums hs hin hrest hone le_rfl
  · rw [← hc₁]
    exact rest_certified hs hin hrest hone hle
  · rw [← hc₂]
    exact rest_certified hs hin hrest hone le_rfl
  · rw [← hc₂, ← hcs]
    exact rest_speedCert hs hin hrest hone
  · rw [hlog, filter_flatMap_log (f := fun e => replayOf e.1) fun e he =>
      (hsteps e he).elim fun _ ⟨_, _, h⟩ => h.filter_votes]
    exact (rest_replayed hs hin hrest hone).map _
  · rw [hlog, countP_flatMap_log (O := done (toCertify HEIGHT_2)) fun e he =>
      (hsteps e he).elim fun _ ⟨_, _, h⟩ => h.countP_speedVotes]
    exact hspeed
  · rw [hlog, countP_flatMap_log (O := done (isNext true)) fun e he =>
      (hsteps e he).elim fun _ ⟨_, _, h⟩ => h.countP_proposals]
    exact hnext hn
  · rw [hcb, hnext hn']

end Outcome

/-- **The buffers lose and duplicate nothing.** An instance that has been handed its two proposals,
votes for them and speed votes, each once and in any order, ends with the same hashes, counts and
certificates whatever the goroutines did in between: it has voted once for each proposal, sent one
speed vote if there is a height-2 certificate, and followed a height-1 certificate with one proposal
of the proposer, or with one callback in the DAG variant. -/
theorem buffers_lossless (E : Env D) (self : NodeID) (k : Key) {h₁ h₂ : D} {m : Inputs D}
    (hm : m.For E k h₁ h₂) :
    (∀ qc, m.second.b.qc = some qc → qc.parentBlockHash = h₁ →
      ∀ b, Bench.Course (runJob E self) E self k b → b.handed.Perm m.jobs → b.node.tasks = [] →
        Outcome E self k h₁ h₂ m b ∧ b.outs.countP (Out.carries isSecondProposeMsg) =
          if k.2 = self ∧ E.hightThreshold ≤ m.votes₁.length then 1 else 0) ∧
    ∀ b, Bench.Course (DAGBigSPB.runJob E self) E self k b → b.handed.Perm m.jobs → b.node.tasks = [] →
      Outcome E self k h₁ h₂ m b ∧ b.taken ++ b.node.callBackSpb =
        if E.hightThreshold ≤ m.votes₁.length then [k] else [] := by
  constructor
  · intro qc hqc hparent b hb hl hrest
    have hfollows : Follows E bigRules m.plan m.second.b := by
      intro s
      have hok : (bigRules : Rules D).parentOk s m.second.b =
          some (decide (s.blockHash HEIGHT_1 = h₁)) := by simp [bigRules, hqc, hparent]
      rw [hok]
      refine ⟨Option.some_ne_none _, fun h => ?_⟩
      have h : s.blockHash HEIGHT_1 = h₁ := h.trans hm.first.2
      rw [decide_eq_true h]
    have hnext : ∀ v, ((bigRules : Rules D).next self k v).countP (isNext true) =
        if k.2 = self then 1 else 0 := fun v => by simp [bigRules]
    have hnone : ∀ v, ((bigRules : Rules D).next self k v).countP (isNext false) = 0 :=
      fun v => by simp [bigRules]
    obtain ⟨hset, hprop, -⟩ := outcome_of_course (fun c k _ _ => does_runJob c k) hb hm hfollows hl
      hrest hnext hnone
    refine ⟨hset, hprop.trans ?_⟩
    by_cases hk : k.2 = self <;> simp [hk]
  · intro b hb hl hrest
    have hfollows : Follows E dagRules m.plan m.second.b :=
      fun _ => ⟨Option.some_ne_none _, fun _ => rfl⟩
    obtain ⟨hset, -, hcalls⟩ := outcome_of_course (fun c k _ _ => does_runJob_dag c k) hb hm hfollows
      hl hrest (fun _ => rfl) fun _ => rfl
    refine ⟨hset, hcalls.trans ?_⟩
    split <;> rfl

namespace Shuffled

/-- The height-1 block of node 0 in view 0. -/
def block₁ : Block ℕ := ⟨0, 0, HEIGHT_1, ⟨-1, []⟩, none, []⟩

def qc₁ : BlockQC ℕ := ⟨0, HEIGHT_1, 0, block₁.hash (Env.plain 4 fun _ => 0), []⟩

/-- The height-2 block on top of it. -/
def block₂ : Block ℕ := ⟨0, 0, HEIGHT_2, ⟨-1, []⟩, some qc₁, []⟩

/-- Votes and speed votes of three nodes. -/
def inputs : Inputs ℕ where
  first := newProposeMsg (Env.plain 4 fun _ => 0) 0 block₁
  second := newProposeMsg (Env.plain 4 fun _ => 0) 0 block₂
  votes₁ := [1, 2, 3].map fun i => newVoteMsg (Env.plain 4 fun _ => 0) i block₁
  votes₂ := [1, 2, 3].map fun i => newVoteMsg (Env.plain 4 fun _ => 0) i block₂
  speedVotes := [1, 2, 3].map fun i => newSpeedVoteMsg (Env.plain 4 fun _ => 0) i qc₁

/-- The speed votes come first and the proposals last. -/
def start : Bench ℕ (BigJob ℕ) :=
  Bench.handAll (0, 0) inputs.jobs.reverse (Bench.new (Env.plain 4 fun _ => 0))

def big : Bench ℕ (BigJob ℕ) := start.work (runJob (Env.plain 4 fun _ => 0) 0) 60

def dag : Bench ℕ (BigJob ℕ) := start.work (DAGBigSPB.runJob (Env.plain 4 fun _ => 0) 0) 60

end Shuffled

theorem buffers_lossless_four :
    (Outcome (Env.plain 4 fun _ => 0) 0 (0, 0) (Shuffled.block₁.hash (Env.plain 4 fun _ => 0))
        (Shuffled.block₂.hash (Env.plain 4 fun _ => 0)) Shuffled.inputs Shuffled.big ∧
      Shuffled.big.outs.countP (Out.carries isSecondProposeMsg) = 1) ∧
    Outcome (Env.plain 4 fun _ => 0) 0 (0, 0) (Shuffled.block₁.hash (Env.plain 4 fun _ => 0))
        (Shuffled.block₂.hash (Env.plain 4 fun _ => 0)) Shuffled.inputs Shuffled.dag ∧
      Shuffled.dag.taken ++ Shuffled.dag.node.callBackSpb = [(0, 0)] := by
  have hm : Shuffled.inputs.For (Env.plain 4 fun _ => 0) (0, 0)
      (Shuffled.block₁.hash (Env.plain 4 fun _ => 0))
      (Shuffled.block₂.hash (Env.plain 4 fun _ => 0)) :=
    ⟨by decide, by decide, by decide, by decide, by decide⟩
  obtain ⟨hbig, hdag⟩ := buffers_lossless (Env.plain 4 fun _ => 0) 0 (0, 0) hm
  have hperm : Shuffled.inputs.jobs.reverse.Perm Shuffled.inputs.jobs := List.reverse_perm _
  have hspec : (Shuffled.big.handed = Shuffled.inputs.jobs.reverse ∧ Shuffled.big.node.tasks = []) ∧
      Shuffled.dag.handed = Shuffled.inputs.jobs.reverse ∧ Shuffled.dag.node.tasks = [] := by
    decide +kernel
  exact ⟨hbig _ rfl rfl _ ((Bench.Course.start.handAll _).workAll _) (hspec.1.1 ▸ hperm) hspec.1.2,
    hdag _ ((Bench.Course.start.handAll _).workAll _) (hspec.2.1 ▸ hperm) hspec.2.2⟩

end BigSPB

end S2Pac
