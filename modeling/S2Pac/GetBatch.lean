import Mathlib.Data.List.Count
import Mathlib.Data.List.Perm.Basic
import Mathlib.Logic.Relation
import S2Pac.Node
import S2Pac.TxQueue

/-!
# Taking batches from the pool

`Pool.GetBatch` in several goroutines at once. `txQueue.get` tests whether there is a batch on the channel
and then receives one, and between the two another call may take the last batch. The call then waits
for a batch that is still to be made (`getBatch_blocks`).

While a call finds the channel with more batches than there are calls about to receive one, or empty, no
call waits (`getBatch_returns`).

The nodes of the protocols see less of the pool: a call that no other comes in between of is
`Node.getBatch`, and a transaction that completes a batch is `Node.makeBatch`.
-/

namespace S2Pac

/-- The capacity of `batchChannel`. -/
def batchCap : ℕ := 1000

/-- Where a call of `GetBatch` stands. -/
inductive Call where
  /-- Before the test. -/
  | called
  /-- It has seen a batch on the channel. -/
  | receiving
  /-- It has returned a batch of the channel. -/
  | got (b : Batch)
  /-- It has returned the empty batch. -/
  | empty
  deriving DecidableEq

namespace Call

/-- What a call has returned. -/
def result : Call → Option Batch
  | .got b => some b
  | .empty => some ⟨-1, []⟩
  | _ => none

/-- The batch that a call has taken off the channel. -/
def taken : Call → Option Batch
  | .got b => some b
  | _ => none

end Call

/-- `Pool`. -/
structure TxPool where
  queue : TxQueue
  /-- The batch that `make` has still to put on the channel. -/
  sending : Option Batch
  batchChannel : List Batch
  /-- The calls of `GetBatch`, in the order in which they were made. -/
  calls : List Call
  /-- The batches that have been put on the channel. -/
  queued : List Batch
  deriving DecidableEq

/-- `NewPool`. -/
def newPool (parameters : Parameters) (n id : ℤ) : TxPool where
  queue := newTxQueue parameters.maxQueueSize parameters.batchSize n id
  sending := none
  batchChannel := []
  calls := []
  queued := []

/-- What can happen in a pool. -/
inductive Move where
  /-- `txQueue.run` takes a transaction, and makes a batch if there are enough. -/
  | tx (tx : Bytes)
  /-- `make` puts its batch on the channel. -/
  | send
  | call
  | test (i : ℕ)
  | receive (i : ℕ)
  deriving DecidableEq

namespace TxPool

/-- One step; `none`: it cannot be taken. -/
def step (s : TxPool) : Move → Option TxPool
  | .tx tx =>
    if s.sending = none then
      (s.queue.put tx).map fun r => { s with queue := r.1, sending := r.2 }
    else none
  | .send =>
    match s.sending with
    | none => none
    | some b =>
      if s.batchChannel.length < batchCap then
        some { s with
          sending := none
          batchChannel := s.batchChannel ++ [b]
          queued := s.queued ++ [b] }
      else none
  | .call => some { s with calls := s.calls ++ [.called] }
  | .test i =>
    if s.calls[i]? = some .called then
      some { s with
        calls := s.calls.set i (if 0 < s.batchChannel.length then .receiving else .empty) }
    else none
  | .receive i =>
    if s.calls[i]? = some .receiving then
      match s.batchChannel with
      | [] => none
      | b :: rest => some { s with batchChannel := rest, calls := s.calls.set i (.got b) }
    else none

/-- **What a step can do.** -/
inductive Steps (s : TxPool) : Move → TxPool → Prop
  | tx {tx : Bytes} {q : TxQueue} {b : Option Batch} : s.sending = none →
      s.queue.put tx = some (q, b) → Steps s (.tx tx) { s with queue := q, sending := b }
  | send {b : Batch} : s.sending = some b → s.batchChannel.length < batchCap →
      Steps s .send { s with
        sending := none
        batchChannel := s.batchChannel ++ [b]
        queued := s.queued ++ [b] }
  | call : Steps s .call { s with calls := s.calls ++ [.called] }
  | found {i : ℕ} : s.calls[i]? = some .called → 0 < s.batchChannel.length →
      Steps s (.test i) { s with calls := s.calls.set i .receiving }
  | missed {i : ℕ} : s.calls[i]? = some .called → s.batchChannel = [] →
      Steps s (.test i) { s with calls := s.calls.set i .empty }
  | receive {i : ℕ} {b : Batch} {rest : List Batch} : s.calls[i]? = some .receiving →
      s.batchChannel = b :: rest →
      Steps s (.receive i) { s with batchChannel := rest, calls := s.calls.set i (.got b) }

theorem steps_of_step {s s' : TxPool} {m : Move} (h : s.step m = some s') : Steps s m s' := by
  cases m with
  | tx tx =>
    simp only [step] at h
    split at h
    · next hsend =>
      obtain ⟨⟨q, b⟩, hput, rfl⟩ := Option.map_eq_some_iff.1 h
      exact Steps.tx hsend hput
    · cases h
  | send =>
    simp only [step] at h
    split at h
    · cases h
    · next b hsend =>
      split at h
      · next hlen =>
        cases h
        exact Steps.send hsend hlen
      · cases h
  | call =>
    cases h
    exact Steps.call
  | test i =>
    simp only [step] at h
    split at h
    · next hi =>
      cases h
      by_cases hlen : 0 < s.batchChannel.length
      · rw [if_pos hlen]
        exact Steps.found hi hlen
      · rw [if_neg hlen]
        exact Steps.missed hi (List.length_eq_zero_iff.1 (by omega))
    · cases h
  | receive i =>
    simp only [step] at h
    split at h
    · next hi =>
      split at h
      · cases h
      · next b rest hch =>
        cases h
        exact Steps.receive hi hch
    · cases h

theorem Steps.step_eq {s s' : TxPool} {m : Move} (h : Steps s m s') : s.step m = some s' := by
  cases h with
  | tx hsend hput => simp only [step, if_pos hsend, hput, Option.map_some]
  | send hsend hlen => simp only [step, hsend, if_pos hlen]
  | call => rfl
  | found hi hlen => simp only [step, if_pos hi, if_pos hlen]
  | missed hi hnil => simp only [step, if_pos hi, hnil, List.length_nil, Nat.lt_irrefl, if_false]
  | receive hi hch => simp only [step, if_pos hi, hch]

/-! ## Runs -/

/-- The calls that have seen a batch and have not received one. -/
def receivers (s : TxPool) : ℕ := s.calls.count .receiving

/-- A call finds the channel empty, or with a batch for itself and for every call that is about to
receive one. -/
def Uncontended (s : TxPool) : Move → Prop
  | .test _ => s.batchChannel = [] ∨ s.receivers < s.batchChannel.length
  | _ => True

instance (s : TxPool) (m : Move) : Decidable (Uncontended s m) :=
  match m with
  | .test _ => by
    unfold Uncontended
    infer_instance
  | .tx _ => instDecidableTrue
  | .send => instDecidableTrue
  | .call => instDecidableTrue
  | .receive _ => instDecidableTrue

/-- Every step of the code. -/
def AnyMove (_ : TxPool) (_ : Move) : Prop := True

instance (s : TxPool) (m : Move) : Decidable (AnyMove s m) := instDecidableTrue

/-- The runs whose steps all meet `G`. -/
def Runs (G : TxPool → Move → Prop) : TxPool → TxPool → Prop :=
  Relation.ReflTransGen fun s s' => ∃ m, G s m ∧ s.step m = some s'

/-- A given sequence of steps. -/
def play (G : TxPool → Move → Prop) [∀ s m, Decidable (G s m)] : TxPool → List Move → Option TxPool
  | s, [] => some s
  | s, m :: ms =>
    if G s m then
      match s.step m with
      | none => none
      | some s' => play G s' ms
    else none

theorem play_cons {G : TxPool → Move → Prop} [∀ s m, Decidable (G s m)] {s s' : TxPool} {m : Move}
    (hg : G s m) (hm : s.step m = some s') (ms : List Move) :
    s.play G (m :: ms) = s'.play G ms := by
  rw [play, if_pos hg, hm]

theorem runs_of_play {G : TxPool → Move → Prop} [∀ s m, Decidable (G s m)] {s s' : TxPool}
    {ms : List Move} (h : s.play G ms = some s') : Runs G s s' := by
  induction ms generalizing s with
  | nil =>
    cases h
    exact Relation.ReflTransGen.refl
  | cons m ms ih =>
    unfold play at h
    split at h
    · next hg =>
      split at h
      · cases h
      · next s₁ hstep => exact Relation.ReflTransGen.head ⟨m, hg, hstep⟩ (ih h)
    · cases h

/-! ## Where the batches are -/

theorem exists_split {cs : List Call} {i : ℕ} {c : Call} (h : cs[i]? = some c) :
    ∃ pre post, cs = pre ++ c :: post ∧ ∀ c', cs.set i c' = pre ++ c' :: post := by
  obtain ⟨hi, rfl⟩ := List.getElem?_eq_some_iff.1 h
  refine ⟨cs.take i, cs.drop (i + 1), ?_, fun c' => ?_⟩
  · rw [List.getElem_cons_drop, List.take_append_drop]
  · rw [List.set_eq_take_append_cons_drop, if_pos hi]

theorem taken_set {cs : List Call} {i : ℕ} {c : Call} (h : cs[i]? = some c) (hc : c.taken = none)
    (c' : Call) :
    ((cs.set i c').filterMap Call.taken).Perm (c'.taken.toList ++ cs.filterMap Call.taken) := by
  obtain ⟨pre, post, rfl, hset⟩ := exists_split h
  rw [hset, List.filterMap_append, List.filterMap_append, List.filterMap_cons_none hc]
  cases hc' : c'.taken with
  | none =>
    rw [List.filterMap_cons_none hc']
    exact List.Perm.refl _
  | some b =>
    rw [List.filterMap_cons_some hc']
    exact List.perm_middle

theorem count_set {cs : List Call} {i : ℕ} {c : Call} (h : cs[i]? = some c) (c' : Call) :
    (cs.set i c').count Call.receiving + (if c = Call.receiving then 1 else 0) =
      cs.count Call.receiving + if c' = Call.receiving then 1 else 0 := by
  obtain ⟨pre, post, rfl, hset⟩ := exists_split h
  rw [hset, List.count_append, List.count_append, List.count_cons, List.count_cons]
  simp only [beq_iff_eq]
  omega

/-- What the calls have taken, and what is on the channel. -/
def held (s : TxPool) : List Batch := s.calls.filterMap Call.taken ++ s.batchChannel

theorem Steps.conserve {s s' : TxPool} {m : Move} (h : Steps s m s')
    (hs : s.held.Perm s.queued) : s'.held.Perm s'.queued := by
  cases h with
  | tx _ _ => exact hs
  | send _ _ =>
    unfold held
    rw [← List.append_assoc]
    exact hs.append_right _
  | call =>
    unfold held
    rw [List.filterMap_append]
    exact (List.append_nil (s.calls.filterMap Call.taken)).symm ▸ hs
  | found hi _ => exact ((taken_set hi rfl .receiving).append_right _).trans hs
  | missed hi _ => exact ((taken_set hi rfl .empty).append_right _).trans hs
  | @receive i b rest hi hch =>
    have hmove : ((s.calls.set i (.got b)).filterMap Call.taken ++ rest).Perm
        (b :: (s.calls.filterMap Call.taken ++ rest)) :=
      (taken_set hi rfl (.got b)).append_right rest
    refine hmove.trans (List.Perm.trans ?_ hs)
    rw [held, hch]
    exact List.perm_middle.symm

theorem Runs.conserve {G : TxPool → Move → Prop} {s s' : TxPool} (h : Runs G s s')
    (hs : s.held.Perm s.queued) : s'.held.Perm s'.queued := by
  induction h with
  | refl => exact hs
  | tail _ hstep ih =>
    obtain ⟨m, -, hm⟩ := hstep
    exact (steps_of_step hm).conserve ih

/-! ## Whether a call waits -/

/-- A call waits on the empty channel. -/
def Blocked (s : TxPool) : Prop :=
  ∃ i : ℕ, s.calls[i]? = some Call.receiving ∧ s.batchChannel = []

theorem exists_receiving {s : TxPool} (h : 0 < s.receivers) :
    ∃ i : ℕ, s.calls[i]? = some Call.receiving :=
  List.mem_iff_getElem?.1 (List.count_pos_iff.1 h)

theorem receivers_pos {s : TxPool} {i : ℕ} (h : s.calls[i]? = some Call.receiving) :
    0 < s.receivers :=
  List.count_pos_iff.2 (List.mem_iff_getElem?.2 ⟨i, h⟩)

/-- A step that meets the condition leaves a batch for every call that is about to receive one. -/
theorem Steps.enough {s s' : TxPool} {m : Move} (h : Steps s m s') (hg : Uncontended s m)
    (hs : s.receivers ≤ s.batchChannel.length) : s'.receivers ≤ s'.batchChannel.length := by
  unfold receivers at hs ⊢
  cases h with
  | tx _ _ => exact hs
  | send _ _ =>
    rw [List.length_append]
    exact Nat.le_trans hs (Nat.le_add_right _ _)
  | call =>
    rw [List.count_append]
    exact hs
  | found hi hlen =>
    have hcount := count_set hi Call.receiving
    simp only [reduceCtorEq, if_false, if_true] at hcount
    rcases hg with hnil | hlt
    · rw [hnil] at hlen
      exact absurd hlen (Nat.lt_irrefl 0)
    · unfold receivers at hlt
      dsimp only
      omega
  | missed hi hnil =>
    have hcount := count_set hi Call.empty
    simp only [reduceCtorEq, if_false] at hcount
    dsimp only
    omega
  | @receive i b rest hi hch =>
    have hcount := count_set hi (Call.got b)
    simp only [reduceCtorEq, if_false, if_true] at hcount
    rw [hch, List.length_cons] at hs
    dsimp only
    omega

theorem Runs.enough {s s' : TxPool} (h : Runs Uncontended s s')
    (hs : s.receivers ≤ s.batchChannel.length) : s'.receivers ≤ s'.batchChannel.length := by
  induction h with
  | refl => exact hs
  | tail _ hstep ih =>
    obtain ⟨m, hg, hm⟩ := hstep
    exact (steps_of_step hm).enough hg ih

theorem not_blocked {s : TxPool} (h : s.receivers ≤ s.batchChannel.length) : ¬ s.Blocked := by
  rintro ⟨i, hi, hnil⟩
  have hpos := receivers_pos hi
  rw [hnil] at h
  exact absurd hpos (Nat.not_lt.2 h)

/-- With more calls about to receive than there are batches, one of them comes to wait. -/
theorem blocked_of_overtaken {s : TxPool} (h : s.batchChannel.length < s.receivers) :
    ∃ s', Runs AnyMove s s' ∧ s'.Blocked := by
  generalize hch : s.batchChannel = ch at h
  induction ch generalizing s with
  | nil =>
    obtain ⟨i, hi⟩ := exists_receiving (Nat.lt_of_le_of_lt (Nat.zero_le _) h)
    exact ⟨s, Relation.ReflTransGen.refl, i, hi, hch⟩
  | cons b rest ih =>
    obtain ⟨i, hi⟩ := exists_receiving (Nat.lt_of_le_of_lt (Nat.zero_le _) h)
    -- the call takes the first batch
    have hstep := (Steps.receive hi hch).step_eq
    have hlt : rest.length <
        receivers { s with batchChannel := rest, calls := s.calls.set i (.got b) } := by
      have hcount := count_set hi (Call.got b)
      simp only [reduceCtorEq, if_false, if_true] at hcount
      unfold receivers at h ⊢
      rw [List.length_cons] at h
      dsimp only
      omega
    obtain ⟨s', hrun, hblocked⟩ := ih rfl hlt
    exact ⟨s', Relation.ReflTransGen.head ⟨.receive i, trivial, hstep⟩ hrun, hblocked⟩

/-! ## A call by itself, and the pool of a node -/

/-- The steps of call `i`. -/
def Own (i : ℕ) (m : Move) : Prop := m = .test i ∨ m = .receive i

theorem result_set {cs : List Call} {i : ℕ} {c : Call} (h : cs[i]? = some c) (c' : Call) :
    (cs.set i c')[i]?.bind Call.result = c'.result := by
  obtain ⟨hi, -⟩ := List.getElem?_eq_some_iff.1 h
  rw [List.getElem?_set_self hi]
  rfl

theorem receive_alone {s : TxPool} {i : ℕ} {b : Batch} {rest : List Batch}
    (hi : s.calls[i]? = some Call.receiving) (hch : s.batchChannel = b :: rest) :
    ∃ s', s.play AnyMove [.receive i] = some s' ∧ s'.batchChannel = rest ∧
      s'.calls[i]?.bind Call.result = some b := by
  refine ⟨{ s with batchChannel := rest, calls := s.calls.set i (.got b) }, ?_, rfl,
    result_set hi (.got b)⟩
  rw [play_cons trivial (Steps.receive hi hch).step_eq, play]

theorem call_alone {s : TxPool} {i : ℕ} (hi : s.calls[i]? = some Call.called) :
    ∃ ms s', (∀ m ∈ ms, Own i m) ∧ s.play AnyMove ms = some s' ∧
      s'.batchChannel = s.batchChannel.tail ∧
      s'.calls[i]?.bind Call.result = some (s.batchChannel.head?.getD ⟨-1, []⟩) := by
  cases hch : s.batchChannel with
  | nil =>
    refine ⟨[.test i], { s with calls := s.calls.set i .empty }, ?_, ?_, hch,
      result_set hi .empty⟩
    · intro m hm
      exact Or.inl (List.mem_singleton.1 hm)
    · rw [play_cons trivial (Steps.missed hi hch).step_eq, play]
  | cons b rest =>
    have hfound : 0 < s.batchChannel.length := by
      rw [hch]
      exact Nat.succ_pos _
    have hreceiving : (s.calls.set i Call.receiving)[i]? = some Call.receiving :=
      List.getElem?_set_self (List.getElem?_eq_some_iff.1 hi).1
    obtain ⟨s', hplay, hrest, hres⟩ :=
      receive_alone (s := { s with calls := s.calls.set i .receiving }) hreceiving hch
    refine ⟨[.test i, .receive i], s', ?_, ?_, hrest, hres⟩
    · intro m hm
      rcases List.mem_cons.1 hm with rfl | hm
      · exact Or.inl rfl
      · exact Or.inr (List.mem_singleton.1 hm)
    · rw [play_cons trivial (Steps.found hi hfound).step_eq]
      exact hplay

/-- `Node.getBatch` is a call without other steps in between. -/
theorem getBatch_alone {D J : Type} (c : Node D J) {s : TxPool} {i : ℕ}
    (hch : s.batchChannel = c.batchChannel) (hi : s.calls[i]? = some Call.called) :
    ∃ ms s', (∀ m ∈ ms, Own i m) ∧ s.play AnyMove ms = some s' ∧
      s'.batchChannel = c.getBatch.2.batchChannel ∧
      s'.calls[i]?.bind Call.result = some c.getBatch.1 := by
  obtain ⟨ms, s', hown, hplay, htail, hres⟩ := call_alone hi
  refine ⟨ms, s', hown, hplay, ?_, ?_⟩
  · rw [htail, hch, Node.getBatch]
    cases hc : c.batchChannel with
    | nil => exact hc.symm
    | cons b rest => rfl
  · rw [hres, hch, Node.getBatch]
    cases hc : c.batchChannel <;> rfl

/-- `Node.makeBatch` is what the node sees of a transaction that completes a batch. -/
theorem makeBatch_of_put {D J : Type} (E : Env D) (self : NodeID) (c : Node D J) {q q' : TxQueue}
    {tx : Bytes} {b : Batch} (h : q.Ok) (hn : q.n = E.n) (hid : q.id = self) (hcnt : q.bcnt = c.bcnt)
    (hput : q.put tx = some (q', some b)) :
    c.makeBatch E self b.txs =
      { c with bcnt := q'.bcnt, batchChannel := c.batchChannel ++ [b] } := by
  obtain ⟨q₁, b₁, hput₁, -, -, hputs⟩ := TxQueue.put_spec h tx
  rw [hput] at hput₁
  cases hput₁
  cases hputs with
  | made _ _ _ hcnt' => rw [Node.makeBatch, hcnt', hn, hid, hcnt]

theorem exists_return {s : TxPool} (hs : ¬ s.Blocked) {i : ℕ} {c : Call}
    (hi : s.calls[i]? = some c) :
    ∃ ms s' b, (∀ m ∈ ms, Own i m) ∧ s.play AnyMove ms = some s' ∧
      s'.calls[i]?.bind Call.result = some b := by
  cases c with
  | called =>
    obtain ⟨ms, s', hown, hplay, -, hres⟩ := call_alone hi
    exact ⟨ms, s', _, hown, hplay, hres⟩
  | receiving =>
    cases hch : s.batchChannel with
    | nil => exact absurd ⟨i, hi, hch⟩ hs
    | cons b rest =>
      obtain ⟨s', hplay, -, hres⟩ := receive_alone hi hch
      refine ⟨[.receive i], s', b, ?_, hplay, hres⟩
      intro m hm
      exact Or.inr (List.mem_singleton.1 hm)
  | got b =>
    refine ⟨[], s, b, fun m hm => absurd hm List.not_mem_nil, rfl, ?_⟩
    rw [hi]
    rfl
  | empty =>
    refine ⟨[], s, ⟨-1, []⟩, fun m hm => absurd hm List.not_mem_nil, rfl, ?_⟩
    rw [hi]
    rfl

theorem queued_of_result {s : TxPool} (hs : s.held.Perm s.queued) {i : ℕ} {b : Batch}
    (h : s.calls[i]?.bind Call.result = some b) : b ∈ s.queued ∨ b = ⟨-1, []⟩ := by
  obtain ⟨c, hc, hres⟩ := Option.bind_eq_some_iff.1 h
  cases c with
  | called => cases hres
  | receiving => cases hres
  | got b' =>
    cases hres
    have htaken : b ∈ s.calls.filterMap Call.taken :=
      List.mem_filterMap.2 ⟨.got b, List.mem_iff_getElem?.2 ⟨i, hc⟩, rfl⟩
    exact Or.inl (hs.subset (List.mem_append_left _ htaken))
  | empty =>
    cases hres
    exact Or.inr rfl

end TxPool

/-- **`GetBatch` does not block** in the runs in which every call that tests the channel finds it empty or
with more batches than calls are about to receive: no call waits on the empty channel, whoever has
returned has a batch that was queued or the empty one, and whoever has not returns when it goes on. In a
run in which a call finds it otherwise, a call may come to wait. -/
theorem getBatch_returns (parameters : Parameters) (n id : ℤ) :
    (∀ s, TxPool.Runs TxPool.Uncontended (newPool parameters n id) s →
      ¬ s.Blocked ∧
      (∀ (i : ℕ) b, s.calls[i]?.bind Call.result = some b → b ∈ s.queued ∨ b = ⟨-1, []⟩) ∧
      ∀ (i : ℕ) c, s.calls[i]? = some c →
        ∃ ms s' b, (∀ m ∈ ms, TxPool.Own i m) ∧ s.play TxPool.AnyMove ms = some s' ∧
          s'.calls[i]?.bind Call.result = some b) ∧
    ∀ (s s' : TxPool) m, s.step m = some s' → ¬ TxPool.Uncontended s m →
      ∃ s'', TxPool.Runs TxPool.AnyMove s' s'' ∧ s''.Blocked := by
  constructor
  · intro s hrun
    have hblocked : ¬ s.Blocked := TxPool.not_blocked (hrun.enough (Nat.le_refl 0))
    have hconserve : s.held.Perm s.queued := hrun.conserve (List.Perm.refl [])
    refine ⟨hblocked, ?_, ?_⟩
    · intro i b hres
      exact TxPool.queued_of_result hconserve hres
    · intro i c hi
      exact TxPool.exists_return hblocked hi
  · intro s s' m hstep hcontended
    apply TxPool.blocked_of_overtaken
    cases TxPool.steps_of_step hstep with
    | tx _ _ => exact absurd trivial hcontended
    | send _ _ => exact absurd trivial hcontended
    | call => exact absurd trivial hcontended
    | @found i hi hlen =>
      have hcount := TxPool.count_set hi Call.receiving
      simp only [reduceCtorEq, if_false, if_true] at hcount
      have hle : s.batchChannel.length ≤ s.receivers :=
        Nat.le_of_not_lt fun hlt => hcontended (Or.inr hlt)
      unfold TxPool.receivers at hle ⊢
      dsimp only
      omega
    | missed _ hnil => exact absurd (Or.inl hnil) hcontended
    | receive _ _ => exact absurd trivial hcontended

/-- Two calls, one after the other: the first takes the batch, the second returns without one. When the
second tests before the first has received, a call comes to wait. -/
theorem getBatch_returns_two :
    (∃ s, TxPool.Runs TxPool.Uncontended (newPool ⟨1, 2⟩ 4 0) s ∧
      s.calls = [.got ⟨0, [[1]]⟩, .empty] ∧ ¬ s.Blocked) ∧
    ∃ s s' s'', TxPool.Runs TxPool.AnyMove (newPool ⟨1, 2⟩ 4 0) s ∧ s.step (.test 1) = some s' ∧
      TxPool.Runs TxPool.AnyMove s' s'' ∧ s''.Blocked := by
  constructor
  · obtain ⟨s, hs, hcalls⟩ : ∃ s, (newPool ⟨1, 2⟩ 4 0).play TxPool.Uncontended
        [.tx [1], .send, .call, .call, .test 0, .receive 0, .test 1] = some s ∧
        s.calls = [.got ⟨0, [[1]]⟩, .empty] := ⟨_, rfl, rfl⟩
    have hrun := TxPool.runs_of_play hs
    exact ⟨s, hrun, hcalls, ((getBatch_returns ⟨1, 2⟩ 4 0).1 s hrun).1⟩
  · obtain ⟨s, s', hs, hstep, hcontended⟩ : ∃ s s', (newPool ⟨1, 2⟩ 4 0).play TxPool.AnyMove
        [.tx [1], .send, .call, .call, .test 0] = some s ∧ s.step (.test 1) = some s' ∧
        ¬ TxPool.Uncontended s (.test 1) := ⟨_, _, rfl, rfl, by decide⟩
    obtain ⟨s'', hrun, hblocked⟩ := (getBatch_returns ⟨1, 2⟩ 4 0).2 s s' _ hstep hcontended
    exact ⟨s, s', s'', TxPool.runs_of_play hs, hstep, hrun, hblocked⟩

/-- **A call waits.** There is one batch on the channel. Two calls see it, the first receives it, and the
second waits on the empty channel. -/
theorem getBatch_blocks :
    ∃ s, TxPool.Runs TxPool.AnyMove (newPool ⟨1, 2⟩ 4 0) s ∧
      s.calls = [.got ⟨0, [[1]]⟩, .receiving] ∧ s.Blocked := by
  obtain ⟨s, hs, hcalls, hch⟩ : ∃ s, (newPool ⟨1, 2⟩ 4 0).play TxPool.AnyMove
      [.tx [1], .send, .call, .call, .test 0, .test 1, .receive 0] = some s ∧
      s.calls = [.got ⟨0, [[1]]⟩, .receiving] ∧ s.batchChannel = [] := ⟨_, rfl, rfl, rfl⟩
  refine ⟨s, TxPool.runs_of_play hs, hcalls, 1, ?_, hch⟩
  rw [hcalls]
  rfl

end S2Pac
