import S2Pac.Lib.Network

/-!
# Goroutines over keyed instances

A host that keeps a state for every key and runs tasks on them: a message that comes in spawns tasks,
and a step of a task changes the state of its key, puts something out and leaves tasks behind. The
tasks run in any order. `PoolCode.Run` are the pools that can arise, whatever comes in; `other` are the
outputs that the rest of the host makes.

* `Run.sourced`: a property of tasks, states and outputs that every step hands on;
* `Run.inst_induction`: a property of states that every step keeps;
* `Run.witnessed`: tasks and outputs that only arise where the state of their key is right;
* `Run.account`: what is counted, pending and put out is at most what has come in;
* `Serves.balance_marked`, `Serves.balance`: where nothing is dropped, it is exactly that.
-/

namespace S2Pac.Lib

variable {κ τ J μ ο : Type} [DecidableEq κ]

/-- The states of the keys, the tasks, and what has come in and gone out, oldest first. -/
structure Pool (κ τ J μ ο : Type) where
  inst : κ → τ
  tasks : List (κ × J)
  received : List μ
  outs : List ο

/-- How many tasks of key `k` satisfy `Q`. -/
def pending (ts : List (κ × J)) (k : κ) (Q : J → Bool) : ℕ :=
  ts.countP fun t => decide (t.1 = k) && Q t.2

theorem pending_pos {ts : List (κ × J)} {k : κ} {j : J} {Q : J → Bool} (h : (k, j) ∈ ts)
    (hq : Q j = true) : 0 < pending ts k Q :=
  List.countP_pos_iff.2 ⟨(k, j), h, by simp [hq]⟩

theorem exists_of_pending_pos {ts : List (κ × J)} {k : κ} {Q : J → Bool}
    (h : 0 < pending ts k Q) : ∃ j, (k, j) ∈ ts ∧ Q j = true := by
  obtain ⟨⟨k', j⟩, hj, ht⟩ := List.countP_pos_iff.1 h
  obtain ⟨rfl, hq⟩ : k' = k ∧ Q j = true := by simpa using ht
  exact ⟨j, hj, hq⟩

theorem pending_append (ts ts' : List (κ × J)) (k : κ) (Q : J → Bool) :
    pending (ts ++ ts') k Q = pending ts k Q + pending ts' k Q := List.countP_append

theorem pending_map_self (k : κ) (js : List J) (Q : J → Bool) :
    pending (js.map (k, ·)) k Q = js.countP Q := by
  rw [pending, List.countP_map]
  exact List.countP_congr fun j _ => by simp

theorem pending_map_ne {k k' : κ} (h : k' ≠ k) (js : List J) (Q : J → Bool) :
    pending (js.map (k', ·)) k Q = 0 := by
  rw [pending, List.countP_map]
  exact List.countP_eq_zero.2 fun j _ => by simp [h]

theorem pending_eraseIdx (ts : List (κ × J)) {i : ℕ} {k' : κ} {j : J} (hi : ts[i]? = some (k', j))
    (k : κ) (Q : J → Bool) :
    pending ts k Q = pending (ts.eraseIdx i) k Q + if k' = k ∧ Q j = true then 1 else 0 := by
  rw [pending, countP_eraseIdx ts i (k', j) hi, pending]
  simp

@[simp] theorem countP_ite_singleton (c : Prop) [Decidable c] (Q : J → Bool) (j : J) :
    (if c then [j] else []).countP Q = if c ∧ Q j = true then 1 else 0 := by
  by_cases hc : c <;> simp [hc]

/-- A counter that is counted up reaches a threshold once. -/
theorem crossing (t n : ℕ) :
    (if n + 1 = t then 1 else 0) + (if t ≤ n then 1 else 0) = if t ≤ n + 1 then 1 else 0 := by
  split_ifs <;> omega

/-- The code of the tasks. `step k s j s' js os`: a step of `j` on the state `s` of `k` makes it `s'`,
leaves the tasks `js` and puts out `os`. -/
structure PoolCode (κ τ J μ ο : Type) where
  init : τ
  spawn : μ → List (κ × J)
  step : κ → τ → J → τ → List J → List ο → Prop
  other : ο → Prop

namespace PoolCode

variable {C : PoolCode κ τ J μ ο}

variable (C) in
/-- The pools that can arise. A message may also be dropped. -/
inductive Run : Pool κ τ J μ ο → Prop
  | start : Run ⟨fun _ => C.init, [], [], []⟩
  | recv {x : Pool κ τ J μ ο} {m : μ} {ts : List (κ × J)} {os : List ο} : Run x →
      (ts = [] ∨ ts = C.spawn m) → (∀ o ∈ os, C.other o) →
      Run ⟨x.inst, x.tasks ++ ts, x.received ++ [m], x.outs ++ os⟩
  | other {x : Pool κ τ J μ ο} {os : List ο} : Run x → (∀ o ∈ os, C.other o) →
      Run ⟨x.inst, x.tasks, x.received, x.outs ++ os⟩
  | job {x : Pool κ τ J μ ο} {i : ℕ} {k : κ} {j : J} {s : τ} {js : List J} {os : List ο} : Run x →
      x.tasks[i]? = some (k, j) → C.step k (x.inst k) j s js os →
      Run ⟨Function.update x.inst k s, x.tasks.eraseIdx i ++ js.map (k, ·), x.received,
        x.outs ++ os⟩

theorem Run.key {k : κ} (hk : ∀ m, ∀ t ∈ C.spawn m, t.1 = k) {x : Pool κ τ J μ ο}
    (hx : C.Run x) : ∀ t ∈ x.tasks, t.1 = k := by
  induction hx with
  | start => simp
  | recv _ hts _ ih =>
    intro t ht
    rcases List.mem_append.1 ht with ht | ht
    · exact ih t ht
    · rcases hts with rfl | rfl
      · exact absurd ht List.not_mem_nil
      · exact hk _ t ht
  | other _ _ ih => exact ih
  | job _ hi _ ih =>
    intro t ht
    rcases List.mem_append.1 ht with ht | ht
    · exact ih t (List.mem_of_mem_eraseIdx ht)
    · obtain ⟨j', -, rfl⟩ := List.mem_map.1 ht
      have h := ih _ (List.mem_of_getElem? hi)
      exact h

variable {R : List μ → Prop}

variable (C) in
/-- The code of the tasks that meet a condition; the others do not run. -/
def restrict (ok : κ → J → Prop) : PoolCode κ τ J μ ο :=
  { C with step := fun k s j s' js os => ok k j ∧ C.step k s j s' js os }

theorem Run.of_restrict {ok : κ → J → Prop} {x : Pool κ τ J μ ο} (hx : (C.restrict ok).Run x) :
    C.Run x := by
  induction hx with
  | start => exact Run.start
  | recv _ hts hos ih => exact Run.recv ih hts hos
  | other _ hos ih => exact Run.other ih hos
  | job _ hi hs ih => exact Run.job ih hi hs.2

/-- When all tasks meet the condition, nothing is lost. -/
theorem Run.restrict {ok : κ → J → Prop} (hR : ∀ l m, R (l ++ [m]) → R l)
    (hok : ∀ x : Pool κ τ J μ ο, C.Run x → R x.received → ∀ k j, (k, j) ∈ x.tasks → ok k j)
    {x : Pool κ τ J μ ο} (hx : C.Run x) (hr : R x.received) : (C.restrict ok).Run x := by
  induction hx with
  | start => exact Run.start
  | recv _ hts hos ih => exact Run.recv (ih (hR _ _ hr)) hts hos
  | other _ hos ih => exact Run.other (ih hr) hos
  | job hx hi hs ih =>
    exact Run.job (ih hr) hi ⟨hok _ hx hr _ _ (List.mem_of_getElem? hi), hs⟩

/-- **Provenance.** Properties of tasks, states and outputs, over what has come in so far, that the
spawned tasks have and every step hands on. -/
theorem Run.sourced (hR : ∀ l m, R (l ++ [m]) → R l) {T : List μ → κ → J → Prop}
    {B : List μ → κ → τ → Prop} {O : List μ → ο → Prop}
    (hT : ∀ l m k j, T l k j → T (l ++ [m]) k j) (hB : ∀ l m k s, B l k s → B (l ++ [m]) k s)
    (hO : ∀ l m o, O l o → O (l ++ [m]) o) (hinit : ∀ k, B [] k C.init)
    (hspawn : ∀ l m t, R (l ++ [m]) → t ∈ C.spawn m → T (l ++ [m]) t.1 t.2)
    (hother : ∀ l o, C.other o → O l o)
    (hjob : ∀ l k s j s' js os, R l → T l k j → B l k s → C.step k s j s' js os →
      (∀ j' ∈ js, T l k j') ∧ B l k s' ∧ ∀ o ∈ os, O l o)
    {x : Pool κ τ J μ ο} (hx : C.Run x) (hr : R x.received) :
    (∀ t ∈ x.tasks, T x.received t.1 t.2) ∧ (∀ k, B x.received k (x.inst k)) ∧
      ∀ o ∈ x.outs, O x.received o := by
  induction hx with
  | start => exact ⟨by simp, hinit, by simp⟩
  | @recv x m ts os _ hts hos ih =>
    obtain ⟨iT, iB, iO⟩ := ih (hR _ _ hr)
    refine ⟨fun t ht => ?_, fun k => hB _ _ _ _ (iB k), fun o ho => ?_⟩
    · rcases List.mem_append.1 ht with ht | ht
      · exact hT _ _ _ _ (iT t ht)
      · rcases hts with rfl | rfl
        · exact absurd ht List.not_mem_nil
        · exact hspawn _ _ _ hr ht
    · rcases List.mem_append.1 ho with ho | ho
      · exact hO _ _ _ (iO o ho)
      · exact hother _ _ (hos o ho)
  | @other x os _ hos ih =>
    obtain ⟨iT, iB, iO⟩ := ih hr
    refine ⟨iT, iB, fun o ho => ?_⟩
    rcases List.mem_append.1 ho with ho | ho
    · exact iO o ho
    · exact hother _ _ (hos o ho)
  | @job x i k j s js os _ hi hs ih =>
    obtain ⟨iT, iB, iO⟩ := ih hr
    obtain ⟨hjs, hs', hos⟩ := hjob _ _ _ _ _ _ _ hr (iT _ (List.mem_of_getElem? hi)) (iB k) hs
    refine ⟨fun t ht => ?_, fun k' => ?_, fun o ho => ?_⟩
    · rcases List.mem_append.1 ht with ht | ht
      · exact iT t (List.mem_of_mem_eraseIdx ht)
      · obtain ⟨j', hj', rfl⟩ := List.mem_map.1 ht
        exact hjs j' hj'
    · by_cases hk : k' = k
      · subst hk
        simpa using hs'
      · simpa [hk] using iB k'
    · rcases List.mem_append.1 ho with ho | ho
      · exact iO o ho
      · exact hos o ho

/-- **Invariants of the states.** A property of states that every step of a task in a run keeps. -/
theorem Run.inst_induction (hR : ∀ l m, R (l ++ [m]) → R l) {B : κ → τ → Prop}
    (hinit : ∀ k, B k C.init)
    (hstep : ∀ x : Pool κ τ J μ ο, C.Run x → R x.received → ∀ k j s' js os, (k, j) ∈ x.tasks →
      C.step k (x.inst k) j s' js os → B k (x.inst k) → B k s')
    {x : Pool κ τ J μ ο} (hx : C.Run x) (hr : R x.received) (k : κ) : B k (x.inst k) := by
  induction hx with
  | start => exact hinit k
  | recv _ _ _ ih => exact ih (hR _ _ hr)
  | other _ _ ih => exact ih hr
  | @job x i k' j s js os hx hi hs ih =>
    dsimp only
    by_cases hk : k = k'
    · subst hk
      rw [Function.update_self]
      exact hstep x hx hr k j s js os (List.mem_of_getElem? hi) hs (ih hr)
    · rw [Function.update_of_ne hk]
      exact ih hr

/-- **Tasks and outputs that only arise where the state is right.** `G` is a property of states
that steps keep; a step of key `k` leaves a `Q`-task or puts out an `O`-output only when its state is
then good or the step was itself a `Q`-task. -/
theorem Run.witnessed (hR : ∀ l m, R (l ++ [m]) → R l) (k : κ) {G : τ → Prop} {Q : J → Prop}
    {O : ο → Prop}
    (hspawn : ∀ l m j, R (l ++ [m]) → (k, j) ∈ C.spawn m → ¬ Q j)
    (hother : ∀ o, C.other o → ¬ O o)
    (hkeep : ∀ x : Pool κ τ J μ ο, C.Run x → R x.received → ∀ j s' js os, (k, j) ∈ x.tasks →
      C.step k (x.inst k) j s' js os → G (x.inst k) → G s')
    (hself : ∀ x : Pool κ τ J μ ο, C.Run x → R x.received → ∀ j s' js os, (k, j) ∈ x.tasks →
      C.step k (x.inst k) j s' js os → ((∃ j' ∈ js, Q j') ∨ ∃ o ∈ os, O o) → G s' ∨ Q j)
    (hne : ∀ x : Pool κ τ J μ ο, C.Run x → R x.received → ∀ k' j s' js os, k' ≠ k →
      (k', j) ∈ x.tasks → C.step k' (x.inst k') j s' js os → ∀ o ∈ os, ¬ O o)
    {x : Pool κ τ J μ ο} (hx : C.Run x) (hr : R x.received) :
    ((∃ j, (k, j) ∈ x.tasks ∧ Q j) ∨ ∃ o ∈ x.outs, O o) → G (x.inst k) := by
  induction hx with
  | start => simp
  | @recv x m ts os _ hts hos ih =>
    rintro (⟨j, hj, hq⟩ | ⟨o, ho, hoo⟩)
    · rcases List.mem_append.1 hj with hj | hj
      · exact ih (hR _ _ hr) (Or.inl ⟨j, hj, hq⟩)
      · rcases hts with rfl | rfl
        · exact absurd hj List.not_mem_nil
        · exact absurd hq (hspawn _ m j hr hj)
    · rcases List.mem_append.1 ho with ho | ho
      · exact ih (hR _ _ hr) (Or.inr ⟨o, ho, hoo⟩)
      · exact absurd hoo (hother o (hos o ho))
  | @other x os _ hos ih =>
    rintro (h | ⟨o, ho, hoo⟩)
    · exact ih hr (Or.inl h)
    · rcases List.mem_append.1 ho with ho | ho
      · exact ih hr (Or.inr ⟨o, ho, hoo⟩)
      · exact absurd hoo (hother o (hos o ho))
  | @job x i k' j s js os hx hi hs ih =>
    have hmem := List.mem_of_getElem? hi
    intro h
    dsimp only at h hr ⊢
    by_cases hk : k' = k
    · subst hk
      rw [Function.update_self]
      have hstep : ((∃ j' ∈ js, Q j') ∨ ∃ o ∈ os, O o) → G s := by
        intro hnew
        rcases hself x hx hr j s js os hmem hs hnew with hg | hq
        · exact hg
        · exact hkeep x hx hr _ _ _ _ hmem hs (ih hr (Or.inl ⟨j, hmem, hq⟩))
      rcases h with ⟨j', hj', hq⟩ | ⟨o, ho, hoo⟩
      · rcases List.mem_append.1 hj' with hj' | hj'
        · exact hkeep x hx hr _ _ _ _ hmem hs (ih hr (Or.inl ⟨j', List.mem_of_mem_eraseIdx hj', hq⟩))
        · obtain ⟨j'', hj'', he⟩ := List.mem_map.1 hj'
          cases he
          exact hstep (Or.inl ⟨j', hj'', hq⟩)
      · rcases List.mem_append.1 ho with ho | ho
        · exact hkeep x hx hr _ _ _ _ hmem hs (ih hr (Or.inr ⟨o, ho, hoo⟩))
        · exact hstep (Or.inr ⟨o, ho, hoo⟩)
    · rw [Function.update_of_ne (Ne.symm hk)]
      rcases h with ⟨j', hj', hq⟩ | ⟨o, ho, hoo⟩
      · rcases List.mem_append.1 hj' with hj' | hj'
        · exact ih hr (Or.inl ⟨j', List.mem_of_mem_eraseIdx hj', hq⟩)
        · obtain ⟨j'', -, he⟩ := List.mem_map.1 hj'
          exact absurd (Prod.mk.inj he).1 hk
      · rcases List.mem_append.1 ho with ho | ho
        · exact ih hr (Or.inr ⟨o, ho, hoo⟩)
        · exact absurd hoo (hne x hx hr k' j s js os hk hmem hs o ho)

/-- **Accounting.** At key `k`: what the state has taken up (`W`, over what has been put out and
how many tasks are marked), the pending tasks and the outputs are at most what has come in, or what the
state allows for (`K`). -/
theorem Run.account_marked (hR : ∀ l m, R (l ++ [m]) → R l) (k : κ) {M : J → Bool}
    {W : List ο → ℕ → τ → ℕ} {K : τ → ℕ} {Q : J → Bool} {O : ο → Bool} {P : μ → Bool}
    (hinit : W [] 0 C.init = 0) (hmark : ∀ m, pending (C.spawn m) k M = 0)
    (hspawn : ∀ l m, R (l ++ [m]) → pending (C.spawn m) k Q ≤ if P m then 1 else 0)
    (hother : ∀ o, C.other o → O o = false)
    (hweight : ∀ outs os n s, (∀ o ∈ os, C.other o) → W (outs ++ os) n s ≤ W outs n s)
    (hself : ∀ x : Pool κ τ J μ ο, C.Run x → R x.received → ∀ j s' js os n, (k, j) ∈ x.tasks →
      C.step k (x.inst k) j s' js os →
      pending x.tasks k M = n + (if M j then 1 else 0) →
      W (x.outs ++ os) (n + js.countP M) s' + js.countP Q + os.countP O + K (x.inst k) ≤
        W x.outs (n + if M j then 1 else 0) (x.inst k) + (if Q j then 1 else 0) + K s')
    (hne : ∀ x : Pool κ τ J μ ο, C.Run x → R x.received → ∀ k' j s' js os, k' ≠ k →
      (k', j) ∈ x.tasks → C.step k' (x.inst k') j s' js os →
      os.countP O = 0 ∧ ∀ n, W (x.outs ++ os) n (x.inst k) ≤ W x.outs n (x.inst k))
    {x : Pool κ τ J μ ο} (hx : C.Run x) (hr : R x.received) :
    W x.outs (pending x.tasks k M) (x.inst k) + pending x.tasks k Q + x.outs.countP O ≤
      x.received.countP P + K (x.inst k) := by
  induction hx with
  | start => simp [pending, hinit]
  | @recv x m ts os _ hts hos ih =>
    have ih := ih (hR _ _ hr)
    have hw := hweight x.outs os (pending x.tasks k M) (x.inst k) hos
    have ho : os.countP O = 0 := List.countP_eq_zero.2 fun o ho => by simp [hother o (hos o ho)]
    have hts' : pending ts k M = 0 ∧ pending ts k Q ≤ if P m then 1 else 0 := by
      rcases hts with rfl | rfl
      · simp [pending]
      · exact ⟨hmark m, hspawn _ m hr⟩
    rw [pending_append, pending_append, hts'.1, Nat.add_zero]
    simp only [List.countP_append, List.countP_singleton]
    omega
  | @other x os _ hos ih =>
    have ih := ih hr
    have hw := hweight x.outs os (pending x.tasks k M) (x.inst k) hos
    have ho : os.countP O = 0 := List.countP_eq_zero.2 fun o ho => by simp [hother o (hos o ho)]
    simp only [List.countP_append]
    omega
  | @job x i k' j s js os hx hi hs ih =>
    have ih := ih hr
    have hmem := List.mem_of_getElem? hi
    have hpend := pending_eraseIdx x.tasks hi k
    simp only [pending_append, List.countP_append]
    by_cases hk : k' = k
    · subst hk
      simp only [true_and] at hpend
      have h := hself x hx hr j s js os _ hmem hs (hpend M)
      rw [Function.update_self, pending_map_self, pending_map_self]
      rw [hpend M, hpend Q] at ih
      omega
    · obtain ⟨ho, hw⟩ := hne x hx hr k' j s js os hk hmem hs
      simp only [hk, false_and, if_false, Nat.add_zero] at hpend
      have hw := hw (pending x.tasks k M)
      rw [Function.update_of_ne (Ne.symm hk), pending_map_ne hk, pending_map_ne hk, ← hpend M,
        ← hpend Q, Nat.add_zero]
      omega

/-- Accounting where the tasks that are pending do not matter to what the state has taken up. -/
theorem Run.account (hR : ∀ l m, R (l ++ [m]) → R l) (k : κ) {W : List ο → τ → ℕ}
    {K : τ → ℕ} {Q : J → Bool} {O : ο → Bool} {P : μ → Bool}
    (hinit : W [] C.init = 0)
    (hspawn : ∀ l m, R (l ++ [m]) → pending (C.spawn m) k Q ≤ if P m then 1 else 0)
    (hother : ∀ o, C.other o → O o = false)
    (hweight : ∀ outs os s, (∀ o ∈ os, C.other o) → W (outs ++ os) s ≤ W outs s)
    (hself : ∀ x : Pool κ τ J μ ο, C.Run x → R x.received → ∀ j s' js os, (k, j) ∈ x.tasks →
      C.step k (x.inst k) j s' js os →
      W (x.outs ++ os) s' + js.countP Q + os.countP O + K (x.inst k) ≤
        W x.outs (x.inst k) + (if Q j then 1 else 0) + K s')
    (hne : ∀ x : Pool κ τ J μ ο, C.Run x → R x.received → ∀ k' j s' js os, k' ≠ k →
      (k', j) ∈ x.tasks → C.step k' (x.inst k') j s' js os →
      os.countP O = 0 ∧ W (x.outs ++ os) (x.inst k) ≤ W x.outs (x.inst k))
    {x : Pool κ τ J μ ο} (hx : C.Run x) (hr : R x.received) :
    W x.outs (x.inst k) + pending x.tasks k Q + x.outs.countP O ≤
      x.received.countP P + K (x.inst k) := by
  refine Run.account_marked hR k (M := fun _ => false) (W := fun outs _ s => W outs s)
    hinit (fun m => by simp [pending]) hspawn hother (fun outs os _ s h => hweight outs os s h)
    (fun x hx hr j s' js os _ hj hs _ => hself x hx hr j s' js os hj hs)
    (fun x hx hr k' j s' js os hk hj hs => ?_) hx hr
  obtain ⟨ho, hw⟩ := hne x hx hr k' j s' js os hk hj hs
  exact ⟨ho, fun _ => hw⟩

/-! ## Nothing is dropped -/

variable (C) in
/-- The pools where every message spawns its tasks and all that is put out comes from them. -/
inductive Serves : Pool κ τ J μ ο → Prop
  | start : Serves ⟨fun _ => C.init, [], [], []⟩
  | recv {x : Pool κ τ J μ ο} (m : μ) : Serves x →
      Serves ⟨x.inst, x.tasks ++ C.spawn m, x.received ++ [m], x.outs⟩
  | job {x : Pool κ τ J μ ο} {i : ℕ} {k : κ} {j : J} {s : τ} {js : List J} {os : List ο} :
      Serves x → x.tasks[i]? = some (k, j) → C.step k (x.inst k) j s js os →
      Serves ⟨Function.update x.inst k s, x.tasks.eraseIdx i ++ js.map (k, ·), x.received,
        x.outs ++ os⟩

theorem Serves.run {x : Pool κ τ J μ ο} (hx : C.Serves x) : C.Run x := by
  induction hx with
  | start => exact Run.start
  | @recv x m _ ih =>
    have h : C.Run ⟨x.inst, x.tasks ++ C.spawn m, x.received ++ [m], x.outs ++ []⟩ :=
      Run.recv ih (Or.inr rfl) (by simp)
    rwa [List.append_nil] at h
  | job _ hi hs ih => exact Run.job ih hi hs

/-- **The books balance.** At key `k`: what the state has taken up (over what has been put out and how
many tasks are marked), the pending tasks and the outputs are together what has come in and what the
state allows for, when every step keeps that. -/
theorem Serves.balance_marked (hR : ∀ l m, R (l ++ [m]) → R l) (k : κ) {M : J → Bool}
    {W : List ο → ℕ → τ → ℕ} {K : τ → ℕ} {Q : J → Bool} {O : ο → Bool} {P : μ → Bool}
    (hinit : W [] 0 C.init = K C.init) (hmark : ∀ l m, R (l ++ [m]) → pending (C.spawn m) k M = 0)
    (hspawn : ∀ l m, R (l ++ [m]) → pending (C.spawn m) k Q = if P m then 1 else 0)
    (hself : ∀ x : Pool κ τ J μ ο, C.Serves x → R x.received → ∀ j s' js os n, (k, j) ∈ x.tasks →
      C.step k (x.inst k) j s' js os → pending x.tasks k M = n + (if M j then 1 else 0) →
      W x.outs (pending x.tasks k M) (x.inst k) + pending x.tasks k Q + x.outs.countP O =
        x.received.countP P + K (x.inst k) →
      W (x.outs ++ os) (n + js.countP M) s' + js.countP Q + os.countP O + K (x.inst k) =
        W x.outs (n + if M j then 1 else 0) (x.inst k) + (if Q j then 1 else 0) + K s')
    (hne : ∀ x : Pool κ τ J μ ο, C.Serves x → R x.received → ∀ k' j s' js os, k' ≠ k →
      (k', j) ∈ x.tasks → C.step k' (x.inst k') j s' js os →
      os.countP O = 0 ∧ ∀ n, W (x.outs ++ os) n (x.inst k) = W x.outs n (x.inst k))
    {x : Pool κ τ J μ ο} (hx : C.Serves x) (hr : R x.received) :
    W x.outs (pending x.tasks k M) (x.inst k) + pending x.tasks k Q + x.outs.countP O =
      x.received.countP P + K (x.inst k) := by
  induction hx with
  | start => simp [pending, hinit]
  | @recv x m _ ih =>
    have ih := ih (hR _ _ hr)
    rw [pending_append, pending_append, hmark _ m hr, hspawn _ m hr, Nat.add_zero]
    simp only [List.countP_append, List.countP_singleton]
    omega
  | @job x i k' j s js os hx hi hs ih =>
    have ih := ih hr
    have hmem := List.mem_of_getElem? hi
    have hpend := pending_eraseIdx x.tasks hi k
    simp only [pending_append, List.countP_append]
    by_cases hk : k' = k
    · subst hk
      simp only [true_and] at hpend
      have h := hself x hx hr j s js os _ hmem hs (hpend M) ih
      rw [Function.update_self, pending_map_self, pending_map_self]
      rw [hpend M, hpend Q] at ih
      omega
    · obtain ⟨ho, hw⟩ := hne x hx hr k' j s js os hk hmem hs
      simp only [hk, false_and, if_false, Nat.add_zero] at hpend
      rw [Function.update_of_ne (Ne.symm hk), pending_map_ne hk, pending_map_ne hk, ← hpend M,
        ← hpend Q, Nat.add_zero, Nat.add_zero, ho, hw]
      exact ih

/-- The books where the tasks that are pending do not matter to what the state has taken up, with all
tasks at key `k`. -/
theorem Serves.balance (hR : ∀ l m, R (l ++ [m]) → R l) {k : κ}
    (hk : ∀ m, ∀ t ∈ C.spawn m, t.1 = k) {W : List ο → τ → ℕ} {K : τ → ℕ} {Q : J → Bool}
    {O : ο → Bool} {P : μ → Bool} (hinit : W [] C.init = K C.init)
    (hspawn : ∀ l m, R (l ++ [m]) → pending (C.spawn m) k Q = if P m then 1 else 0)
    (hstep : ∀ x : Pool κ τ J μ ο, C.Serves x → R x.received → ∀ j s' js os, (k, j) ∈ x.tasks →
      C.step k (x.inst k) j s' js os →
      W x.outs (x.inst k) + pending x.tasks k Q + x.outs.countP O =
        x.received.countP P + K (x.inst k) →
      W (x.outs ++ os) s' + js.countP Q + os.countP O + K (x.inst k) =
        W x.outs (x.inst k) + (if Q j then 1 else 0) + K s')
    {x : Pool κ τ J μ ο} (hx : C.Serves x) (hr : R x.received) :
    W x.outs (x.inst k) + pending x.tasks k Q + x.outs.countP O =
      x.received.countP P + K (x.inst k) := by
  refine Serves.balance_marked hR k (M := fun _ => false) (W := fun outs _ s => W outs s) hinit
    (fun _ m _ => by simp [pending]) hspawn
    (fun x hx hr j s' js os _ hj hs _ ih => hstep x hx hr j s' js os hj hs ih)
    (fun x hx _ k' j _ _ _ hne hj _ => ?_) hx hr
  exact absurd (hx.run.key hk _ hj) hne

end PoolCode

end S2Pac.Lib
