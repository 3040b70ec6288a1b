import S2Pac.BigSPB.Course
import S2Pac.Conduct
import S2Pac.Lib.Work

/-!
# A node comes to rest

What a node has to do between two messages: the rest of a handler, the callbacks that wait for the main
loop of the DAG variant, and the goroutines of the instances. Every piece of it has a rank, and a step
leaves only pieces of lower ranks: a proposal is voted for after it is recorded, it brings back what waited
for it, votes make certificates, and so on down to `SpeedCert()`. Whatever the node has been sent, it comes
to rest (`work_ends`).

What carries the argument is that only height-2 proposals wait in `unHandlePropose`; the replay of a
height-1 proposal would otherwise start itself again.
-/

set_option linter.unusedSectionVars false

namespace S2Pac

open Lib

variable {D : Type} [DecidableEq D] {J : Type}

/-! ## The work of a node -/

/-- What is left of a handler; `n` is the size of the committee, which `getReference` goes through. -/
def Pc.work (n : ℕ) : Pc D → Multiset ℕ
  | .idle => 0
  | .gather _ _ i _ => {n + 1 - i}
  | .report _ _ => {n + 2}
  | .commit _ _ _ _ => {n + 3}
  | .fetch _ _ _ => {n + 4}
  | .decide _ _ => {n + 5}
  | .coin _ _ => {n + 6}

/-- **What a node has to do**: the rest of a handler, the callbacks and the goroutines. -/
def Node.work (n : ℕ) (rank : J → ℕ) (c : Node D J) : Multiset ℕ :=
  c.pc.work n + Multiset.replicate c.callBackSpb.length (n + 7) +
    (c.tasks.map fun t => n + 8 + rank t.2 : List ℕ)

/-- The steps that are not set off from outside: those of the goroutines and those of the main loop, which
is inside a handler or takes a callback. -/
def AtWork : Machine.Guard NodeID (Node D J) (Msg D) Act (Event D) :=
  fun _ _ x =>
    match x with
    | .act (.task _) => True
    | .act .main => True
    | .act .callback => True
    | _ => False

section Steps

variable {n : ℕ} {rank : J → ℕ} {c c' : Node D J}

theorem eases_task {i : ℕ} {k : Key} {j : J} {js : List J} {ks : List Key}
    (hi : c.tasks[i]? = some (k, j)) (hpc : c'.pc = c.pc)
    (htasks : c'.tasks = c.tasks.eraseIdx i ++ js.map (k, ·))
    (hcalls : c'.callBackSpb = c.callBackSpb ++ ks) (hjs : ∀ j' ∈ js, rank j' < rank j) :
    Eases (c'.work n rank) (c.work n rank) := by
  have hmap : (c.tasks.map fun t => n + 8 + rank t.2)[i]? = some (n + 8 + rank j) := by
    rw [List.getElem?_map, hi]
    rfl
  have hbefore : c.work n rank = (c.pc.work n + Multiset.replicate c.callBackSpb.length (n + 7) +
      ((c.tasks.eraseIdx i).map fun t => n + 8 + rank t.2 : List ℕ)) + {n + 8 + rank j} := by
    rw [Node.work, coe_eraseIdx_add hmap, List.eraseIdx_map, add_assoc _ _ {n + 8 + rank j}]
  have hafter : c'.work n rank = (c.pc.work n + Multiset.replicate c.callBackSpb.length (n + 7) +
      ((c.tasks.eraseIdx i).map fun t => n + 8 + rank t.2 : List ℕ)) +
        (Multiset.replicate ks.length (n + 7) + (js.map fun j => n + 8 + rank j : List ℕ)) := by
    rw [Node.work, hpc, htasks, hcalls, List.length_append, Multiset.replicate_add, List.map_append,
      List.map_map, ← Multiset.coe_add, ← add_assoc (c.pc.work n), add_add_add_comm]
    rfl
  rw [hbefore, hafter]
  refine eases_piece _ fun b hb => ?_
  rcases Multiset.mem_add.1 hb with hb | hb
  · rw [Multiset.eq_of_mem_replicate hb]
    omega
  · obtain ⟨j', hj', rfl⟩ := List.mem_map.1 (Multiset.mem_coe.1 hb)
    have := hjs j' hj'
    omega

theorem eases_pc {a : ℕ} (hpc : c.pc.work n = {a}) (hlt : ∀ b ∈ c'.pc.work n, b < a)
    (hcalls : c'.callBackSpb = c.callBackSpb) (htasks : c'.tasks = c.tasks) :
    Eases (c'.work n rank) (c.work n rank) := by
  have h := eases_piece (Multiset.replicate c.callBackSpb.length (n + 7) +
    (c.tasks.map fun t => n + 8 + rank t.2 : List ℕ)) hlt
  rw [add_comm, add_comm _ ({a} : Multiset ℕ)] at h
  rw [Node.work, Node.work, hcalls, htasks, hpc, add_assoc, add_assoc]
  exact h

theorem CoinStep.eases {second : NodeID → ℤ → Bool} {os : List (NodeOut D)}
    (h : CoinStep second c c' os) : Eases (c'.work n rank) (c.work n rank) := by
  have hone {a b : ℕ} (hab : b < a) : ∀ x ∈ ({b} : Multiset ℕ), x < a := by
    intro x hx
    rw [Multiset.mem_singleton.1 hx]
    exact hab
  cases h with
  | speed hpc _ => exact eases_pc (by rw [hpc]; rfl) (hone (by omega)) rfl rfl
  | slow hpc => exact eases_pc (by rw [hpc]; rfl) (hone (by omega)) rfl rfl
  | second hpc _ => exact eases_pc (by rw [hpc]; rfl) (hone (by omega)) rfl rfl
  | undecided hpc _ => exact eases_pc (by rw [hpc]; rfl) (hone (by omega)) rfl rfl
  | missing hpc _ =>
    exact eases_pc (by rw [hpc]; rfl) (fun _ hx => absurd hx (Multiset.notMem_zero _)) rfl rfl
  | found hpc _ => exact eases_pc (by rw [hpc]; rfl) (hone (by omega)) rfl rfl
  | handed hpc _ => exact eases_pc (by rw [hpc]; rfl) (hone (by omega)) rfl rfl

theorem Node.entry_work_lt {view : ℤ} {height a : ℕ} (ha : n + 1 < a) :
    ∀ b ∈ (c.entry view height).work n, b < a := by
  intro b hb
  unfold Node.entry at hb
  split at hb
  · rw [Multiset.mem_singleton.1 hb]
    omega
  · exact absurd hb (Multiset.notMem_zero _)

theorem eases_callback {k : Key} {rest : List Key} (hready : c.ready = true)
    (hks : c.callBackSpb = k :: rest) :
    Eases ({ c with callBackSpb := rest, pc := c.entry k.1 HEIGHT_2 }.work n rank) (c.work n rank) := by
  have hbefore : c.work n rank = (Multiset.replicate rest.length (n + 7) +
      (c.tasks.map fun t => n + 8 + rank t.2 : List ℕ)) + {n + 7} := by
    rw [Node.work, hks, (Node.idle_of_ready hready).2, List.length_cons, Multiset.replicate_succ,
      ← Multiset.singleton_add, Pc.work, zero_add, add_assoc, add_comm]
  rw [hbefore, Node.work, add_assoc, add_comm]
  exact eases_piece _ (Node.entry_work_lt (by omega))

/-- **A step does a piece of the work**, where the goroutines leave others of lower ranks. -/
theorem Acting.eases {E : Env D} {self : NodeID} {V : Variant} {P : Goroutines D J} {a : Act}
    {os : List (NodeOut D)} (h : Acting E self V P c a c' os) {host : NodeHost D J}
    (ha : AtWork self host (.act a))
    (hrank : ∀ k j s js os, (k, j) ∈ c.tasks → P.step self k (c.spbInstances k) j s js os →
      ∀ j' ∈ js, rank j' < rank j) : Eases (c'.work E.n rank) (c.work E.n rank) := by
  have hzero {b : ℕ} : ∀ x ∈ (0 : Multiset ℕ), x < b := fun _ hx => absurd hx (Multiset.notMem_zero _)
  cases h with
  | task hi _ hstep hwork =>
    exact eases_task hi hwork.pc hwork.tasks hwork.callBackSpb
      (hrank _ _ _ _ _ (List.mem_of_getElem? hi) hstep)
  | coin hc => exact hc.eases
  | report _ hpc => exact eases_pc (by rw [hpc]; rfl) hzero rfl rfl
  | leave _ hpc => exact eases_pc (by rw [hpc]; rfl) (Node.entry_work_lt (by omega)) rfl rfl
  | @ask _ _ i _ _ hpc hi =>
    refine eases_pc (a := E.n + 1 - i) (by rw [hpc]; rfl) (fun b hb => ?_) rfl rfl
    rw [Multiset.mem_singleton.1 hb]
    omega
  | propose _ hpc _ _ => exact eases_pc (by rw [hpc]; rfl) hzero rfl rfl
  | few _ hpc _ _ => exact eases_pc (by rw [hpc]; rfl) hzero rfl rfl
  | callback _ hready hks => exact eases_callback hready hks
  | _ => exact ha.elim

end Steps

/-! ## The ranks of the goroutines -/

namespace Core

variable {E : Env D} {self : NodeID}

/-- What a goroutine of the lean protocol can still lead to. -/
def stage : SpbJob D → ℕ
  | .propose p => if p.height = HEIGHT_1 then 5 else 3
  | .replay p => if p.height = HEIGHT_1 then 4 else 2
  | .vote _ => 1
  | .finVote _ => 1
  | .speedVote _ => 1
  | .quorum _ => 0
  | .speedCert => 0

theorem JobStep.stage_lt {k : Key} {s s' : SPB D} {j : SpbJob D} {js : List (SpbJob D)}
    {os : List (NodeOut D)} (h : JobStep E self k s j s' js os)
    (hs : ∀ p ∈ s.unHandlePropose, p.height = HEIGHT_2) : ∀ j' ∈ js, stage j' < stage j := by
  intro j' hj'
  cases h with
  | proposeFirst p hp =>
    rw [List.mem_singleton.1 hj']
    simp [stage, hp]
  | proposeSecond p qc hp _ _ =>
    rw [List.mem_singleton.1 hj']
    simp [stage, hp]
  | proposeOther p h₁ _ =>
    rw [List.mem_singleton.1 hj']
    simp [stage, h₁]
  | replay p =>
    rcases mem_waiting hj' with ⟨hh, p', hp', rfl⟩ | ⟨hh, fv, -, rfl⟩
    · simp [stage, hh, hs p' hp']
    · simp [stage, hh]
  | vote v _ =>
    split at hj'
    · rw [List.mem_singleton.1 hj']
      exact Nat.one_pos
    · exact absurd hj' List.not_mem_nil
  | speedVote sv _ _ =>
    split at hj'
    · rw [List.mem_singleton.1 hj']
      exact Nat.one_pos
    · exact absurd hj' List.not_mem_nil
  | _ => exact absurd hj' List.not_mem_nil

end Core

namespace BigSPB

variable {E : Env D} {self : NodeID} {V : Rules D}

/-- What a goroutine of the big protocols can still lead to. -/
def stage : BigJob D → ℕ
  | .propose p => if p.height = HEIGHT_1 then 10 else 8
  | .replay p => if p.height = HEIGHT_1 then 9 else 7
  | .vote _ => 6
  | .count _ => 5
  | .quorum _ => 4
  | .newPropose _ => 3
  | .callBack => 3
  | .replaySpeed => 3
  | .speedVote _ => 2
  | .speedCount => 1
  | .speedCert => 0

theorem JobStep.stage_lt {k : Key} {s s' : SPB D} {j : BigJob D} {js : List (BigJob D)}
    {os : List (NodeOut D)} (h : JobStep E self V k s j s' js os)
    (hs : ∀ p ∈ s.unHandlePropose, p.height = HEIGHT_2) : ∀ j' ∈ js, stage j' < stage j := by
  intro j' hj'
  have hreplay (height : ℕ) : 7 ≤ if height = HEIGHT_1 then 9 else 7 := by
    split <;> omega
  cases h with
  | proposeFirst p hp =>
    rw [List.mem_singleton.1 hj']
    simp [stage, hp]
  | proposeSecond p hp _ =>
    rw [List.mem_singleton.1 hj']
    simp [stage, hp]
  | proposeOther p h₁ _ =>
    rw [List.mem_singleton.1 hj']
    simp [stage, h₁]
  | replay p =>
    rcases mem_waiting hj' with ⟨hh, p', hp', rfl⟩ | ⟨-, v, -, rfl⟩
    · simp [stage, hh, hs p' hp']
    · exact hreplay p.height
  | vote v _ _ =>
    rw [List.mem_singleton.1 hj']
    exact Nat.lt_succ_self 5
  | count v =>
    split at hj'
    · rw [List.mem_singleton.1 hj']
      exact Nat.lt_succ_self 4
    · exact absurd hj' List.not_mem_nil
  | quorumFirst v _ =>
    rcases V.next_cases _ _ _ _ hj' with rfl | ⟨rfl, -⟩ <;> exact Nat.lt_succ_self 3
  | quorumSecond v _ =>
    rw [List.mem_singleton.1 hj']
    exact Nat.lt_succ_self 3
  | replaySpeed =>
    obtain ⟨sv, -, rfl⟩ := List.mem_map.1 hj'
    exact Nat.lt_succ_self 2
  | speedVote sv _ _ _ =>
    rw [List.mem_singleton.1 hj']
    exact Nat.lt_succ_self 1
  | speedCount =>
    split at hj'
    · rw [List.mem_singleton.1 hj']
      exact Nat.one_pos
    · exact absurd hj' List.not_mem_nil
  | _ => exact absurd hj' List.not_mem_nil

end BigSPB

/-! ## Rest -/

theorem Branches.acc {E : Env D} {V : Variant} {P : Goroutines D J}
    {M : Machine NodeID (Node D J) (Msg D) Act (Event D)} (hM : Branches E V P M) {self : NodeID}
    {rank : J → ℕ}
    (hrank : ∀ h, M.Local Machine.anyInput self h → ∀ k j s js os, (k, j) ∈ h.st.tasks →
      P.step self k (h.st.spbInstances k) j s js os → ∀ j' ∈ js, rank j' < rank j)
    {h : NodeHost D J} (hl : M.Local Machine.anyInput self h) :
    Acc (fun h' h => M.LocalStep AtWork self h h') h := by
  refine acc_of_work (I := M.Local Machine.anyInput self) (fun h => h.st.work E.n rank) ?_ hl
  rintro h h' hl ⟨x, r, hx, hr, rfl⟩
  refine ⟨Machine.Local.input hl trivial hr, ?_⟩
  cases x with
  | recv m => exact hx.elim
  | act a =>
    obtain ⟨⟨c, os⟩, ha, rfl⟩ := Option.map_eq_some_iff.1 hr
    exact (hM.act _ _ _ _ ha).eases hx (hrank h hl)

/-- A buffered proposal is one of height 2, so that what it leads to has a lower rank. -/
theorem Core.stage_falls {E : Env D} {self : NodeID} {h : NodeHost D (SpbJob D)}
    (hl : (machine E).Local Machine.anyInput self h) (k : Key) (j : SpbJob D) (s : SPB D)
    (js : List (SpbJob D)) (os : List (NodeOut D))
    (hs : JobStep E self k (h.st.spbInstances k) j s js os) : ∀ j' ∈ js, stage j' < stage j :=
  hs.stage_lt fun p hp =>
    (((held_of_run ((conducts E).run hl)).2 k).unHandlePropose p hp).2.2

theorem BigSPB.stage_falls {E : Env D} {V : Rules D} {docG : Bool}
    {second : BigNode D → NodeID → ℤ → Bool} {M : NodeMachine D (BigJob D)}
    (hM : Conducts E docG (spawn V) (fun i => JobStep E i V) second M) {self : NodeID}
    {h : NodeHost D (BigJob D)} (hl : M.Local Machine.anyInput self h) (k : Key) (j : BigJob D)
    (s : SPB D) (js : List (BigJob D)) (os : List (NodeOut D))
    (hs : JobStep E self V k (h.st.spbInstances k) j s js os) : ∀ j' ∈ js, stage j' < stage j :=
  hs.stage_lt fun p hp => (((held_of_run (hM.run hl)).2 k).unHandlePropose p hp).2.2

/-- **A node comes to rest.** Whatever it has been sent, in whatever order and however its goroutines were
scheduled, the goroutines and the main loop take finitely many steps until the next message, in all three
protocols. -/
theorem work_ends (E : Env D) (self : NodeID) :
    (∀ h, (Core.machine E).Local Machine.anyInput self h →
      Acc (fun h' h => (Core.machine E).LocalStep AtWork self h h') h) ∧
    (∀ h, (BigCore.machine E).Local Machine.anyInput self h →
      Acc (fun h' h => (BigCore.machine E).LocalStep AtWork self h h') h) ∧
    ∀ h, (DAGBigCore.machine E).Local Machine.anyInput self h →
      Acc (fun h' h => (DAGBigCore.machine E).LocalStep AtWork self h h') h :=
  ⟨fun _ hl => (Core.branches E).acc (fun _ hl k j s js os _ => Core.stage_falls hl k j s js os) hl,
    fun _ hl => (BigCore.branches E).acc
      (fun _ hl k j s js os _ => BigSPB.stage_falls (BigCore.conducts E) hl k j s js os) hl,
    fun _ hl => (DAGBigCore.branches E).acc
      (fun _ hl k j s js os _ => BigSPB.stage_falls (DAGBigCore.conducts E) hl k j s js os) hl⟩

namespace Busy

/-- The blocks of node 1. -/
def first : Block ℕ := ⟨1, 0, HEIGHT_1, ⟨-1, []⟩, none, []⟩

def second : Block ℕ :=
  ⟨1, 0, HEIGHT_2, ⟨-1, []⟩, some ⟨0, HEIGHT_1, 1, first.hash (Env.plain 4 fun _ => 0), []⟩, []⟩

/-- The height-2 proposal comes before the height-1 one, and votes come before the proposals of node 0. -/
def messages : List (Msg ℕ) :=
  .propose ⟨1, second, 0, HEIGHT_2, none, []⟩ :: .propose ⟨1, first, 0, HEIGHT_1, none, []⟩ ::
    [1, 2, 3].flatMap fun i => [.vote ⟨i, 0, 0, 0, HEIGHT_1, []⟩, .vote ⟨i, 0, 0, 0, HEIGHT_2, []⟩,
      .speedVote ⟨i, i, 0, 0, []⟩]

/-- Node 0 has been handed all of that, and none of the goroutines has run. -/
def host (M : NodeMachine ℕ J) : NodeHost ℕ J :=
  M.feed Machine.anyInput 0 (M.start 0) (.act .boot :: messages.map .recv)

end Busy

theorem work_ends_busy :
    ((Busy.host (Core.machine (Env.plain 4 fun _ => 0))).st.tasks.length = 11 ∧
      Acc (fun h' h => (Core.machine (Env.plain 4 fun _ => 0)).LocalStep AtWork 0 h h')
        (Busy.host (Core.machine (Env.plain 4 fun _ => 0)))) ∧
    ((Busy.host (BigCore.machine (Env.plain 4 fun _ => 0))).st.tasks.length = 11 ∧
      Acc (fun h' h => (BigCore.machine (Env.plain 4 fun _ => 0)).LocalStep AtWork 0 h h')
        (Busy.host (BigCore.machine (Env.plain 4 fun _ => 0)))) ∧
    (Busy.host (DAGBigCore.machine (Env.plain 4 fun _ => 0))).st.tasks.length = 11 ∧
      Acc (fun h' h => (DAGBigCore.machine (Env.plain 4 fun _ => 0)).LocalStep AtWork 0 h h')
        (Busy.host (DAGBigCore.machine (Env.plain 4 fun _ => 0))) := by
  obtain ⟨hcore, hbig, hdag⟩ := work_ends (Env.plain 4 fun _ => 0) 0
  refine ⟨⟨by decide +kernel, hcore _ ?_⟩, ⟨by decide +kernel, hbig _ ?_⟩, by decide +kernel, hdag _ ?_⟩
  all_goals exact Machine.Local.start.steps (Machine.feed_sound _ _ _)

end S2Pac
