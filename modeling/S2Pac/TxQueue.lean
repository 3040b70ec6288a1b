import Mathlib.Data.List.Nodup
import S2Pac.Lib.Ring
import S2Pac.Message

/-!
# The transaction pool

`pool/pool.go`: the transactions that come in go through a ring buffer, `queue`, and leave it in batches
of `batchSize`. The read index is that of the slot that was read last; it starts at `-1`. The ring counts
as full when the write index has come up with it.

Behind the ring is a queue, `pending`. A transaction that is not turned away is put behind it, and the
one that makes it `batchSize` long takes all of it out as a batch (`Puts`).

* `txQueue_fifo`: what comes out is what went in, in batches of the right size and with ids of their own;
* `pool_progress_iff`: batches keep being made exactly when a batch does not fill the whole ring.
-/

namespace S2Pac

open Lib

/-- `txQueue`; the batches that it makes are handed over by `put`. -/
structure TxQueue where
  queue : List Bytes
  /-- Write index. -/
  wind : ℕ
  /-- Read index. -/
  rind : ℤ
  nums : ℕ
  maxQueueSize : ℕ
  batchSize : ℕ
  n : ℤ
  id : ℤ
  bcnt : ℕ
  deriving DecidableEq

/-- `Parameters`, without what only the maker of transactions reads. -/
structure Parameters where
  batchSize : ℕ
  maxQueueSize : ℕ

def defaultParameters : Parameters := ⟨200, 10000⟩

def newTxQueue (maxQueueSize batchSize : ℕ) (n id : ℤ) : TxQueue where
  queue := List.replicate maxQueueSize []
  wind := 0
  rind := -1
  nums := 0
  maxQueueSize := maxQueueSize
  batchSize := batchSize
  n := n
  id := id
  bcnt := 0

namespace TxQueue

/-- The slot after the one that was read last, before it is taken modulo the size. -/
def front (q : TxQueue) : ℕ := (q.rind + 1).toNat

/-- One turn of the loop in `make`; `none` where it panics. -/
def read (q : TxQueue) : Option (TxQueue × Bytes) :=
  let rind := q.front % q.maxQueueSize
  match q.queue[rind]? with
  | none => none
  | some tx => some ({ q with rind := rind, nums := q.nums - 1 }, tx)

/-- The loop in `make`. -/
def readAll : ℕ → TxQueue → List Bytes → Option (TxQueue × List Bytes)
  | 0, q, txs => some (q, txs)
  | i + 1, q, txs =>
    match q.read with
    | none => none
    | some (q', tx) => readAll i q' (txs ++ [tx])

/-- `txQueue.make`, with the batch that goes on the channel. -/
def make (q : TxQueue) : Option (TxQueue × Batch) :=
  match readAll q.batchSize q [] with
  | none => none
  -- the code counts the batch when it has been sent; only this goroutine reads the counter
  | some (q', txs) => some ({ q' with bcnt := q'.bcnt + 1 }, ⟨q.id + q.n * q.bcnt, txs⟩)

/-- The write index has come up with the read index. -/
def isFull (q : TxQueue) : Prop := (q.wind : ℤ) = q.rind

instance (q : TxQueue) : Decidable q.isFull := by
  unfold isFull
  infer_instance

/-- A transaction in its slot. -/
def write (q : TxQueue) (tx : Bytes) : TxQueue :=
  { q with
    queue := q.queue.set q.wind tx
    wind := (q.wind + 1) % q.maxQueueSize
    nums := q.nums + 1 }

/-- One turn of the loop in `run`; `none` where it panics. -/
def put (q : TxQueue) (tx : Bytes) : Option (TxQueue × Option Batch) :=
  if q.isFull then some (q, none)
  else if q.wind < q.queue.length then
    if q.batchSize ≤ (q.write tx).nums then (q.write tx).make.map fun r => (r.1, some r.2)
    else some (q.write tx, none)
  else none

/-- `txQueue.run` on a stream of transactions, with the batches that it makes. -/
def run : TxQueue → List Bytes → Option (TxQueue × List Batch)
  | q, [] => some (q, [])
  | q, tx :: txs =>
    match q.put tx with
    | none => none
    | some (q', b) => (q'.run txs).map fun r => (r.1, b.toList ++ r.2)

/-- The transactions of a stream that `run` does not turn away. -/
def accepted : TxQueue → List Bytes → List Bytes
  | _, [] => []
  | q, tx :: txs =>
    match q.put tx with
    | none => []
    | some (q', _) => if q.isFull then q'.accepted txs else tx :: q'.accepted txs

/-! ## The queue behind the ring -/

/-- The slot of an unread transaction. -/
def slot (q : TxQueue) (i : ℕ) : ℕ := (q.front + i) % q.maxQueueSize

/-- The unread transactions, oldest first. -/
def pending (q : TxQueue) : List Bytes := window q.queue q.front q.nums

/-- **How the indices lie.** -/
structure Laid (q : TxQueue) : Prop where
  size : q.queue.length = q.maxQueueSize
  rind_ge : -1 ≤ q.rind
  rind_lt : q.rind < q.maxQueueSize
  wind : q.wind = (q.front + q.nums) % q.maxQueueSize
  room : q.nums ≤ q.maxQueueSize

/-- What never changes. -/
structure Kept (q q' : TxQueue) : Prop where
  maxQueueSize : q'.maxQueueSize = q.maxQueueSize
  batchSize : q'.batchSize = q.batchSize
  n : q'.n = q.n
  id : q'.id = q.id

theorem Kept.refl (q : TxQueue) : Kept q q := ⟨rfl, rfl, rfl, rfl⟩

theorem Kept.trans {q q' q'' : TxQueue} (h : Kept q q') (h' : Kept q' q'') : Kept q q'' :=
  ⟨h'.maxQueueSize.trans h.maxQueueSize, h'.batchSize.trans h.batchSize, h'.n.trans h.n,
    h'.id.trans h.id⟩

theorem length_pending {q : TxQueue} (h : q.Laid) : q.pending.length = q.nums :=
  length_window (h.size ▸ h.room) _

theorem read_spec {q : TxQueue} (h : q.Laid) (hn : 0 < q.nums) :
    ∃ q' tx, q.read = some (q', tx) ∧ q'.Laid ∧ Kept q q' ∧ q'.bcnt = q.bcnt ∧ 0 ≤ q'.rind ∧
      q'.nums + 1 = q.nums ∧ q.pending = tx :: q'.pending := by
  have hroom := h.room
  have hlt : q.front % q.maxQueueSize < q.maxQueueSize := Nat.mod_lt _ (by omega)
  obtain ⟨k, hk⟩ : ∃ k, q.nums = k + 1 := ⟨q.nums - 1, by omega⟩
  have hlen : k < q.queue.length := by
    rw [h.size]
    omega
  obtain ⟨tx, htx, hwin⟩ := window_read hlen q.front
  rw [h.size] at htx
  have hfront : front { q with rind := (q.front % q.maxQueueSize : ℕ), nums := q.nums - 1 } =
      q.front % q.maxQueueSize + 1 := by
    simp only [front]
    omega
  refine ⟨{ q with rind := (q.front % q.maxQueueSize : ℕ), nums := q.nums - 1 }, tx, ?_,
    ⟨h.size, ?_, ?_, ?_, ?_⟩, ⟨rfl, rfl, rfl, rfl⟩, rfl, Int.natCast_nonneg _, ?_, ?_⟩
  · simp only [read, htx]
  · dsimp only
    omega
  · dsimp only
    omega
  · rw [hfront]
    dsimp only
    rw [h.wind, Nat.add_assoc, Nat.mod_add_mod]
    congr 1
    omega
  · dsimp only
    omega
  · dsimp only
    omega
  · simp only [pending]
    rw [hfront, hk, hwin, Nat.add_sub_cancel]
    congr 1
    rw [← window_mod, ← window_mod q.queue (q.front % q.maxQueueSize + 1), h.size, Nat.mod_add_mod]

theorem readAll_spec {q : TxQueue} (h : q.Laid) {k : ℕ} (hk : k ≤ q.nums) (txs : List Bytes) :
    ∃ q', readAll k q txs = some (q', txs ++ q.pending.take k) ∧ q'.Laid ∧ Kept q q' ∧
      q'.bcnt = q.bcnt ∧ (0 < k → 0 ≤ q'.rind) ∧ q'.nums + k = q.nums := by
  induction k generalizing q txs with
  | zero =>
    refine ⟨q, ?_, h, Kept.refl q, rfl, fun h => absurd h (Nat.lt_irrefl 0), rfl⟩
    rw [readAll, List.take_zero, List.append_nil]
  | succ k ih =>
    obtain ⟨q₁, tx, hread, h₁, hkept₁, hcnt₁, hpos₁, hnums₁, hpend₁⟩ := read_spec h (by omega)
    obtain ⟨q', hall, h', hkept', hcnt', hpos', hnums'⟩ := ih h₁ (by omega) (txs ++ [tx])
    refine ⟨q', ?_, h', hkept₁.trans hkept', hcnt'.trans hcnt₁, fun _ => ?_, by omega⟩
    · rw [readAll, hread, hpend₁, List.take_succ_cons]
      simpa using hall
    · rcases Nat.eq_zero_or_pos k with rfl | hk0
      · obtain ⟨rfl, -⟩ := Prod.mk.inj (Option.some.inj hall)
        exact hpos₁
      · exact hpos' hk0

/-- A batch takes everything out when there is just enough for it. -/
theorem make_spec {q : TxQueue} (h : q.Laid) (hb : 1 ≤ q.batchSize) (hn : q.nums = q.batchSize) :
    ∃ q', q.make = some (q', ⟨q.id + q.n * q.bcnt, q.pending⟩) ∧ q'.Laid ∧ Kept q q' ∧
      q'.bcnt = q.bcnt + 1 ∧ 0 ≤ q'.rind ∧ q'.nums = 0 := by
  obtain ⟨q₁, hall, h₁, hkept₁, hcnt₁, hpos₁, hnums₁⟩ := readAll_spec h (le_of_eq hn.symm) []
  have htake : q.pending.take q.batchSize = q.pending :=
    List.take_of_length_le (by rw [length_pending h, hn])
  rw [htake, List.nil_append] at hall
  refine ⟨{ q₁ with bcnt := q₁.bcnt + 1 }, ?_, ⟨h₁.size, h₁.rind_ge, h₁.rind_lt, h₁.wind, h₁.room⟩,
    ⟨hkept₁.maxQueueSize, hkept₁.batchSize, hkept₁.n, hkept₁.id⟩, ?_, hpos₁ hb, ?_⟩
  · rw [make, hall]
  · dsimp only
    rw [hcnt₁]
  · dsimp only
    omega

theorem write_spec {q : TxQueue} (h : q.Laid) (hn : q.nums < q.maxQueueSize) (tx : Bytes) :
    (q.write tx).Laid ∧ (q.write tx).pending = q.pending ++ [tx] := by
  refine ⟨⟨?_, h.rind_ge, h.rind_lt, ?_, hn⟩, ?_⟩
  · simp only [write]
    rw [List.length_set, h.size]
  · simp only [write, front]
    rw [h.wind, Nat.mod_add_mod]
    rfl
  · have hw := window_write (h.size ▸ hn) q.front tx
    rw [h.size, ← h.wind] at hw
    exact hw

/-! ## One transaction -/

/-- **The pool between two transactions.** Fewer than `batchSize` are pending, and the read index is
`-1` until the first batch. -/
structure Ok (q : TxQueue) : Prop extends Laid q where
  pos : 1 ≤ q.batchSize
  fits : q.batchSize ≤ q.maxQueueSize
  short : q.nums < q.batchSize
  first : q.rind = -1 ↔ q.bcnt = 0

theorem ok_new {maxQueueSize batchSize : ℕ} (hb : 1 ≤ batchSize) (hm : batchSize ≤ maxQueueSize)
    (n id : ℤ) : (newTxQueue maxQueueSize batchSize n id).Ok where
  size := List.length_replicate
  rind_ge := Int.le_refl _
  rind_lt := by
    simp only [newTxQueue]
    omega
  wind := by simp [newTxQueue, front]
  room := Nat.zero_le _
  pos := hb
  fits := hm
  short := hb
  first := by simp [newTxQueue]

/-- The ring is taken for full with one slot left, from the first batch on. -/
theorem isFull_iff {q : TxQueue} (h : q.Ok) :
    q.isFull ↔ 0 < q.bcnt ∧ q.nums + 1 = q.maxQueueSize := by
  have hshort := h.short
  have hfits := h.fits
  have hlt := h.rind_lt
  by_cases hfirst : q.rind = -1
  · have hcnt := h.first.1 hfirst
    unfold isFull
    omega
  · have hge := h.rind_ge
    have hcnt : q.bcnt ≠ 0 := fun hc => hfirst (h.first.2 hc)
    obtain ⟨r, hr⟩ : ∃ r : ℕ, q.rind = r := ⟨q.rind.toNat, by omega⟩
    have hfront : q.front = r + 1 := by
      unfold front
      omega
    have hlast := slot_eq_last_iff (m := q.maxQueueSize) (r := r) (n := q.nums) (by omega) (by omega)
    rw [isFull, h.wind, hfront, hr, Int.ofNat_inj, hlast]
    omega

/-- **What a transaction can do.** -/
inductive Puts (q : TxQueue) (tx : Bytes) : TxQueue → Option Batch → Prop
  /-- It is turned away. -/
  | full : q.isFull → Puts q tx q none
  /-- It is queued. -/
  | queued {q' : TxQueue} : ¬ q.isFull → q.nums + 1 < q.batchSize →
      q'.pending = q.pending ++ [tx] → q'.bcnt = q.bcnt → Puts q tx q' none
  /-- It completes a batch. -/
  | made {q' : TxQueue} : ¬ q.isFull → q.nums + 1 = q.batchSize → q'.pending = [] →
      q'.bcnt = q.bcnt + 1 → Puts q tx q' (some ⟨q.id + q.n * q.bcnt, q.pending ++ [tx]⟩)

theorem put_spec {q : TxQueue} (h : q.Ok) (tx : Bytes) :
    ∃ q' b, q.put tx = some (q', b) ∧ q'.Ok ∧ Kept q q' ∧ Puts q tx q' b := by
  have hshort := h.short
  have hfits := h.fits
  by_cases hfull : q.isFull
  · exact ⟨q, none, by rw [put, if_pos hfull], h, Kept.refl q, Puts.full hfull⟩
  · obtain ⟨hlaid, hpend⟩ := write_spec h.toLaid (by omega) tx
    have hwind : q.wind < q.queue.length := by
      rw [h.wind, h.size]
      exact Nat.mod_lt _ (by omega)
    by_cases hb : q.batchSize ≤ q.nums + 1
    · obtain ⟨q', hmake, h', hkept, hcnt, hpos, hnums⟩ :=
        make_spec hlaid h.pos (show q.nums + 1 = q.batchSize by omega)
      rw [hpend] at hmake
      refine ⟨q', some ⟨q.id + q.n * q.bcnt, q.pending ++ [tx]⟩, ?_,
        ⟨h', hkept.batchSize ▸ h.pos, ?_, ?_, ?_⟩,
        ⟨hkept.maxQueueSize, hkept.batchSize, hkept.n, hkept.id⟩,
        Puts.made hfull (by omega) ?_ hcnt⟩
      · rw [put, if_neg hfull, if_pos hwind, if_pos (show q.batchSize ≤ (q.write tx).nums from hb),
          hmake]
        rfl
      · rw [hkept.batchSize, hkept.maxQueueSize]
        exact hfits
      · rw [hnums, hkept.batchSize]
        exact h.pos
      · rw [hcnt]
        omega
      · rw [pending, hnums, window_zero]
    · refine ⟨q.write tx, none, ?_, ⟨hlaid, h.pos, hfits, ?_, h.first⟩, ⟨rfl, rfl, rfl, rfl⟩,
        Puts.queued hfull (by omega) hpend rfl⟩
      · rw [put, if_neg hfull, if_pos hwind,
          if_neg (show ¬ q.batchSize ≤ (q.write tx).nums from hb)]
      · show q.nums + 1 < q.batchSize
        omega

theorem Puts.conserve {q q' : TxQueue} {tx : Bytes} {b : Option Batch} (h : Puts q tx q' b) :
    q.pending ++ (if q.isFull then [] else [tx]) = b.toList.flatMap Batch.txs ++ q'.pending := by
  cases h with
  | full hfull => simp [hfull]
  | queued hfull _ hpend _ => simp [hfull, hpend]
  | made hfull _ hpend _ => simp [hfull, hpend]

theorem Puts.nums_eq {q q' : TxQueue} {tx : Bytes} (h : Puts q tx q' none) (hfull : ¬ q.isFull)
    (hq : q.Ok) (hq' : q'.Ok) : q'.nums = q.nums + 1 ∧ q'.bcnt = q.bcnt := by
  cases h with
  | full hf => exact absurd hf hfull
  | queued _ _ hpend hcnt =>
    refine ⟨?_, hcnt⟩
    rw [← length_pending hq'.toLaid, ← length_pending hq.toLaid, hpend, List.length_append,
      List.length_singleton]

/-! ## Streams of transactions -/

theorem run_cons {q q₁ q' : TxQueue} {tx : Bytes} {txs : List Bytes} {b : Option Batch}
    {bs : List Batch} (hput : q.put tx = some (q₁, b)) (hrun : q₁.run txs = some (q', bs)) :
    q.run (tx :: txs) = some (q', b.toList ++ bs) := by
  rw [run, hput]
  simp only [hrun, Option.map_some]

theorem accepted_cons {q q₁ : TxQueue} {tx : Bytes} {b : Option Batch}
    (hput : q.put tx = some (q₁, b)) (txs : List Bytes) :
    q.accepted (tx :: txs) = (if q.isFull then [] else [tx]) ++ q₁.accepted txs := by
  rw [accepted, hput]
  dsimp only
  split <;> rfl

theorem accepted_sublist (q : TxQueue) (txs : List Bytes) : (q.accepted txs).Sublist txs := by
  induction txs generalizing q with
  | nil => exact List.Sublist.refl _
  | cons tx txs ih =>
    unfold accepted
    split
    · exact List.nil_sublist _
    · split
      · exact (ih _).cons _
      · exact (ih _).cons_cons _

/-- **What a stream of transactions does to the pool.** -/
structure Delivers (q : TxQueue) (txs : List Bytes) (q' : TxQueue) (bs : List Batch) : Prop where
  conserve : q.pending ++ q.accepted txs = bs.flatMap Batch.txs ++ q'.pending
  sizes : ∀ b ∈ bs, b.txs.length = q.batchSize
  ids : bs.map Batch.id = (List.range' q.bcnt bs.length).map fun k : ℕ => q.id + q.n * k
  bcnt : q'.bcnt = q.bcnt + bs.length

theorem run_spec {q : TxQueue} (h : q.Ok) (txs : List Bytes) :
    ∃ q' bs, q.run txs = some (q', bs) ∧ q'.Ok ∧ Kept q q' ∧ Delivers q txs q' bs := by
  induction txs generalizing q with
  | nil =>
    refine ⟨q, [], rfl, h, Kept.refl q, ⟨?_, fun b hb => absurd hb List.not_mem_nil, rfl, rfl⟩⟩
    rw [accepted, List.append_nil, List.flatMap_nil, List.nil_append]
  | cons tx txs ih =>
    obtain ⟨q₁, b, hput, h₁, hkept₁, hputs⟩ := put_spec h tx
    obtain ⟨q', bs, hrun, h', hkept', hdel⟩ := ih h₁
    refine ⟨q', b.toList ++ bs, run_cons hput hrun, h', hkept₁.trans hkept', ?_⟩
    have hconserve : q.pending ++ q.accepted (tx :: txs) =
        (b.toList ++ bs).flatMap Batch.txs ++ q'.pending := by
      rw [accepted_cons hput, ← List.append_assoc, hputs.conserve, List.append_assoc, hdel.conserve,
        List.flatMap_append, List.append_assoc]
    have hsizes : ∀ b' ∈ bs, b'.txs.length = q.batchSize := by
      intro b' hb'
      rw [hdel.sizes b' hb', hkept₁.batchSize]
    have hids := hdel.ids
    rw [hkept₁.id, hkept₁.n] at hids
    have hcnt := hdel.bcnt
    cases hputs with
    | full _ => exact ⟨hconserve, hsizes, hids, hcnt⟩
    | queued _ _ _ hcnt₁ =>
      rw [hcnt₁] at hids hcnt
      exact ⟨hconserve, hsizes, hids, hcnt⟩
    | made _ hlen _ hcnt₁ =>
      rw [hcnt₁] at hids hcnt
      refine ⟨hconserve, ?_, ?_, ?_⟩
      · intro b' hb'
        rcases List.mem_cons.1 hb' with rfl | hb'
        · dsimp only
          rw [List.length_append, length_pending h.toLaid, List.length_singleton, hlen]
        · exact hsizes b' hb'
      · rw [Option.toList_some, List.singleton_append, List.map_cons, List.length_cons,
          List.range'_succ, List.map_cons, hids]
      · rw [Option.toList_some, List.singleton_append, List.length_cons, hcnt]
        omega

/-- The unread transactions are in the unread slots, and the next one is written to none of these. -/
theorem Ok.unread {q : TxQueue} (h : q.Ok) {i : ℕ} (hi : i < q.nums) :
    q.pending[i]? = q.queue[q.slot i]? ∧ q.slot i ≠ q.wind := by
  have hshort := h.short
  have hfits := h.fits
  constructor
  · rw [pending, getElem?_window _ _ (h.size ▸ h.room) hi, h.size]
    rfl
  · rw [h.wind]
    exact slot_ne (by omega) hi

end TxQueue

/-- The ids that two pools of one committee give are different. -/
theorem batch_id_inj {N i j k l : ℕ} (hi : i < N) (hj : j < N)
    (h : (i : ℤ) + N * k = j + N * l) : i = j ∧ k = l := by
  have hmod : ((i : ℤ) + N * k) % N = (j + N * l) % N := by rw [h]
  rw [Int.add_mul_emod_self_left, Int.add_mul_emod_self_left, Int.emod_eq_of_lt (by omega) (by omega),
    Int.emod_eq_of_lt (by omega) (by omega)] at hmod
  obtain rfl : i = j := by omega
  refine ⟨rfl, ?_⟩
  have hN : (N : ℤ) ≠ 0 := by omega
  have hmul : (N : ℤ) * k = N * l := by omega
  exact Int.ofNat_inj.1 (Int.eq_of_mul_eq_mul_left hN hmul)

/-- **The transaction pool is a queue.** Whatever transactions come in: the batches that have been made,
followed by what is pending, are the transactions that were not turned away; every batch has
`batchSize` of them; the next transaction is written to no unread slot; and the batches of the `N` pools of
a committee have different ids, none of them `-1`. -/
theorem txQueue_fifo :
    (∀ (maxQueueSize batchSize : ℕ) (n id : ℤ) (txs : List Bytes), 1 ≤ batchSize →
      batchSize ≤ maxQueueSize →
      ∃ q batches, (newTxQueue maxQueueSize batchSize n id).run txs = some (q, batches) ∧
        batches.flatMap Batch.txs ++ q.pending =
          (newTxQueue maxQueueSize batchSize n id).accepted txs ∧
        ((newTxQueue maxQueueSize batchSize n id).accepted txs).Sublist txs ∧
        q.pending.length = q.nums ∧ (∀ b ∈ batches, b.txs.length = batchSize) ∧
        ∀ i < q.nums, q.pending[i]? = q.queue[q.slot i]? ∧ q.slot i ≠ q.wind) ∧
    ∀ (N : ℕ) (maxQueueSize batchSize : ℕ → ℕ) (txs : ℕ → List Bytes),
      (∀ i < N, 1 ≤ batchSize i ∧ batchSize i ≤ maxQueueSize i) →
      ∃ batches : ℕ → List Batch,
        (∀ i < N, ∃ q, (newTxQueue (maxQueueSize i) (batchSize i) N i).run (txs i) =
          some (q, batches i)) ∧
        (((List.range N).flatMap batches).map Batch.id).Nodup ∧
        ∀ b ∈ (List.range N).flatMap batches, b.id ≠ -1 := by
  constructor
  · intro maxQueueSize batchSize n id txs hb hm
    have hnew := TxQueue.ok_new hb hm n id
    obtain ⟨q, bs, hrun, hq, -, hdel⟩ := TxQueue.run_spec hnew txs
    refine ⟨q, bs, hrun, hdel.conserve.symm, TxQueue.accepted_sublist _ txs,
      TxQueue.length_pending hq.toLaid, hdel.sizes, fun i hi => hq.unread hi⟩
  · intro N maxQueueSize batchSize txs hsizes
    have hpool : ∀ i, ∃ bs : List Batch, i < N →
        (∃ q, (newTxQueue (maxQueueSize i) (batchSize i) N i).run (txs i) = some (q, bs)) ∧
        bs.map Batch.id = (List.range bs.length).map fun k : ℕ => (i : ℤ) + N * k := by
      intro i
      by_cases hi : i < N
      · have hnew := TxQueue.ok_new (hsizes i hi).1 (hsizes i hi).2 N i
        obtain ⟨q, bs, hrun, -, -, hdel⟩ := TxQueue.run_spec hnew (txs i)
        refine ⟨bs, fun _ => ⟨⟨q, hrun⟩, ?_⟩⟩
        rw [List.range_eq_range']
        exact hdel.ids
      · exact ⟨[], fun h => absurd h hi⟩
    choose batches hbatches using hpool
    -- an id says which pool has given it, and as which one
    have hid : ∀ i < N, ∀ x ∈ (batches i).map Batch.id, ∃ k : ℕ, x = i + N * k := by
      intro i hi x hx
      rw [(hbatches i hi).2] at hx
      obtain ⟨k, -, rfl⟩ := List.mem_map.1 hx
      exact ⟨k, rfl⟩
    refine ⟨batches, fun i hi => (hbatches i hi).1, ?_, ?_⟩
    · rw [List.map_flatMap, List.nodup_flatMap]
      constructor
      · intro i hi
        have hiN := List.mem_range.1 hi
        rw [(hbatches i hiN).2]
        exact List.Nodup.map (fun k l hkl => (batch_id_inj hiN hiN hkl).2) List.nodup_range
      · refine List.Pairwise.imp_of_mem ?_ List.nodup_range
        intro i j hi hj hne x hxi hxj
        obtain ⟨k, rfl⟩ := hid i (List.mem_range.1 hi) x hxi
        obtain ⟨l, hl⟩ := hid j (List.mem_range.1 hj) _ hxj
        exact hne (batch_id_inj (List.mem_range.1 hi) (List.mem_range.1 hj) hl).1
    · intro b hb
      obtain ⟨i, hi, hbi⟩ := List.mem_flatMap.1 hb
      obtain ⟨k, hk⟩ := hid i (List.mem_range.1 hi) b.id (List.mem_map_of_mem hbi)
      have hpos : (0 : ℤ) ≤ N * k := Int.mul_nonneg (Int.natCast_nonneg _) (Int.natCast_nonneg _)
      omega

/-- Five transactions in a ring of three slots, and two pools that make two batches each. -/
theorem txQueue_fifo_three :
    (newTxQueue 3 2 4 1).accepted [[1], [2], [3], [4], [5]] = [[1], [2], [3], [4], [5]] ∧
    (∃ q batches, (newTxQueue 3 2 4 1).run [[1], [2], [3], [4], [5]] = some (q, batches) ∧
      batches.flatMap Batch.txs ++ q.pending = [[1], [2], [3], [4], [5]] ∧
      ∀ b ∈ batches, b.txs.length = 2) ∧
    ∃ batches : ℕ → List Batch,
      (∀ i : ℕ, i < 2 → ∃ q, (newTxQueue 2 1 2 i).run [[1], [2]] = some (q, batches i)) ∧
      (((List.range 2).flatMap batches).map Batch.id).Nodup := by
  have haccepted : (newTxQueue 3 2 4 1).accepted [[1], [2], [3], [4], [5]] =
      [[1], [2], [3], [4], [5]] := by decide
  refine ⟨haccepted, ?_, ?_⟩
  · obtain ⟨q, batches, hrun, hfifo, -, -, hsizes, -⟩ :=
      txQueue_fifo.1 3 2 4 1 [[1], [2], [3], [4], [5]] (by decide) (by decide)
    exact ⟨q, batches, hrun, hfifo.trans haccepted, hsizes⟩
  · obtain ⟨batches, hruns, hnodup, -⟩ :=
      txQueue_fifo.2 2 (fun _ => 2) (fun _ => 1) (fun _ => [[1], [2]]) (by decide)
    exact ⟨batches, hruns, hnodup⟩

/-! ## Whether batches keep being made -/

namespace TxQueue

/-- `batchSize` pending and new transactions make a batch, unless the ring is taken for full before. -/
theorem run_progress {q : TxQueue} (h : q.Ok)
    (hfree : q.batchSize < q.maxQueueSize ∨ q.bcnt = 0) {txs : List Bytes}
    (hlen : q.batchSize ≤ q.nums + txs.length) :
    ∃ q' bs, q.run txs = some (q', bs) ∧ bs ≠ [] := by
  induction txs generalizing q with
  | nil =>
    have hshort := h.short
    rw [List.length_nil] at hlen
    omega
  | cons tx txs ih =>
    have hshort := h.short
    have hfull : ¬ q.isFull := by
      rw [isFull_iff h]
      omega
    obtain ⟨q₁, b, hput, h₁, hkept, hputs⟩ := put_spec h tx
    cases b with
    | none =>
      obtain ⟨hnums, hcnt⟩ := hputs.nums_eq hfull h h₁
      have hfree₁ : q₁.batchSize < q₁.maxQueueSize ∨ q₁.bcnt = 0 := by
        rw [hkept.batchSize, hkept.maxQueueSize, hcnt]
        exact hfree
      have hlen₁ : q₁.batchSize ≤ q₁.nums + txs.length := by
        rw [hkept.batchSize, hnums]
        rw [List.length_cons] at hlen
        omega
      obtain ⟨q', bs, hrun, hne⟩ := ih h₁ hfree₁ hlen₁
      exact ⟨q', bs, run_cons hput hrun, hne⟩
    | some b =>
      obtain ⟨q', bs, hrun, -, -, -⟩ := run_spec h₁ txs
      exact ⟨q', b :: bs, run_cons hput hrun, List.cons_ne_nil _ _⟩

/-- **A batch that fills the ring is the only one.** One slot before the next batch the ring is taken for
full, and nothing is read any more. -/
theorem run_wedged {q : TxQueue} (h : q.Ok) (hsize : q.batchSize = q.maxQueueSize)
    (hcnt : 0 < q.bcnt) (txs : List Bytes) : ∃ q', q.run txs = some (q', []) := by
  induction txs generalizing q with
  | nil => exact ⟨q, rfl⟩
  | cons tx txs ih =>
    obtain ⟨q₁, b, hput, h₁, hkept, hputs⟩ := put_spec h tx
    have hsize₁ : q₁.batchSize = q₁.maxQueueSize := by
      rw [hkept.batchSize, hkept.maxQueueSize, hsize]
    cases hputs with
    | full _ =>
      obtain ⟨q', hrun⟩ := ih h₁ hsize₁ hcnt
      exact ⟨q', run_cons hput hrun⟩
    | queued _ _ _ hcnt₁ =>
      obtain ⟨q', hrun⟩ := ih h₁ hsize₁ (hcnt₁ ▸ hcnt)
      exact ⟨q', run_cons hput hrun⟩
    | made hfull hlast _ _ =>
      exact absurd ((isFull_iff h).2 ⟨hcnt, hlast.trans hsize⟩) hfull

theorem exists_first_batch {maxQueueSize batchSize : ℕ} (hb : 1 ≤ batchSize)
    (hm : batchSize ≤ maxQueueSize) (n id : ℤ) :
    ∃ q bs, (newTxQueue maxQueueSize batchSize n id).run (List.replicate batchSize []) =
        some (q, bs) ∧
      q.Ok ∧ Kept (newTxQueue maxQueueSize batchSize n id) q ∧ 0 < q.bcnt := by
  have hnew := ok_new hb hm n id
  obtain ⟨q, bs, hrun, hq, hkept, hdel⟩ := run_spec hnew (List.replicate batchSize [])
  have hlen : batchSize ≤ 0 + (List.replicate batchSize ([] : Bytes)).length := by
    rw [List.length_replicate]
    exact Nat.le_add_left _ _
  obtain ⟨q', bs', hrun', hne⟩ := run_progress hnew (Or.inr rfl) hlen
  rw [hrun] at hrun'
  cases hrun'
  refine ⟨q, bs, hrun, hq, hkept, ?_⟩
  rw [hdel.bcnt]
  exact Nat.lt_of_lt_of_le (List.length_pos_iff.2 hne) (Nat.le_add_left _ _)

end TxQueue

/-- **When the pool never wedges.** From every state that a stream of transactions leads to, `batchSize`
more of them make a batch, exactly when a batch does not fill the whole ring. -/
theorem pool_progress_iff {maxQueueSize batchSize : ℕ} (hb : 1 ≤ batchSize)
    (hm : batchSize ≤ maxQueueSize) (n id : ℤ) :
    (∀ txs q batches, (newTxQueue maxQueueSize batchSize n id).run txs = some (q, batches) →
      ∀ more : List Bytes, more.length = batchSize →
        ∃ q' batches', q.run more = some (q', batches') ∧ batches' ≠ []) ↔
      batchSize < maxQueueSize := by
  constructor
  · intro hall
    by_contra hge
    obtain ⟨q, bs, hrun, hq, hkept, hcnt⟩ := TxQueue.exists_first_batch hb hm n id
    have hsize : q.batchSize = q.maxQueueSize := by
      rw [hkept.batchSize, hkept.maxQueueSize]
      exact Nat.le_antisymm hm (Nat.le_of_not_lt hge)
    obtain ⟨q', batches', hrun', hne⟩ :=
      hall _ q bs hrun (List.replicate batchSize []) List.length_replicate
    obtain ⟨q'', hstuck⟩ := TxQueue.run_wedged hq hsize hcnt (List.replicate batchSize [])
    rw [hstuck] at hrun'
    cases hrun'
    exact hne rfl
  · intro hlt txs q batches hrun more hmore
    obtain ⟨q₁, bs, hrun₁, hq, hkept, -⟩ := TxQueue.run_spec (TxQueue.ok_new hb hm n id) txs
    rw [hrun] at hrun₁
    cases hrun₁
    have hfree : q.batchSize < q.maxQueueSize := by
      rw [hkept.batchSize, hkept.maxQueueSize]
      exact hlt
    have hlen : q.batchSize ≤ q.nums + more.length := by
      rw [hkept.batchSize, hmore]
      exact Nat.le_add_left _ _
    exact TxQueue.run_progress hq (Or.inl hfree) hlen

/-- The default parameters are on the safe side. -/
theorem pool_progress_default :
    ∃ q batches, (newTxQueue defaultParameters.maxQueueSize defaultParameters.batchSize 4 0).run
      (List.replicate defaultParameters.batchSize [7]) = some (q, batches) ∧ batches ≠ [] :=
  (pool_progress_iff (by decide) (by decide) 4 0).2 (by decide) [] _ [] rfl
    (List.replicate defaultParameters.batchSize [7]) List.length_replicate

/-- **The pool wedges.** In a ring of two slots with batches of two, the first two transactions make a
batch, and no transactions that come after them make another. -/
theorem pool_wedges_two :
    1 ≤ 2 ∧ 2 ≤ 2 ∧ ∃ q, (newTxQueue 2 2 4 0).run [[1], [2]] = some (q, [⟨0, [[1], [2]]⟩]) ∧
      ∀ more : List Bytes, ∃ q', q.run more = some (q', []) := by
  obtain ⟨q, bs, hrun, hq, hkept, hdel⟩ :=
    TxQueue.run_spec (TxQueue.ok_new (by decide : 1 ≤ 2) (Nat.le_refl 2) 4 0) [[1], [2]]
  have hbs : ((newTxQueue 2 2 4 0).run [[1], [2]]).map Prod.snd = some [⟨0, [[1], [2]]⟩] := by decide
  rw [hrun, Option.map_some, Option.some_inj] at hbs
  dsimp only at hbs
  subst hbs
  refine ⟨by decide, by decide, q, hrun, TxQueue.run_wedged hq ?_ ?_⟩
  · rw [hkept.batchSize, hkept.maxQueueSize]
    rfl
  · rw [hdel.bcnt]
    decide

end S2Pac
