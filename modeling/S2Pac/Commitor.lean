import Mathlib.Logic.Relation
import S2Pac.Message

/-!
# The commitors

`core/commitor.go` and `core/dag_commitor.go`. `Commit` is called by the main loop and puts a block on
`blocksChan`; `run` is a goroutine of its own that takes blocks off the channel and emits them with
their ancestors. `run` is cut into its steps, so that the store may change between any two of them:
`work` says where it is.

The two commitors have the same fields. `Commitor.run` walks up the parents (`walk`) and then emits
what it met, oldest first (`emit`); `DAGCommitor.run` works through a queue (`bfs`).
-/

set_option linter.unusedSectionVars false

namespace S2Pac

variable {D : Type} [DecidableEq D]

/-- The block store, keyed by digests. -/
abbrev Store (D : Type) : Type := D → Option (Block D)

/-- `storeBlock`: the key is the block's own hash. -/
def storeBlock (E : Env D) (st : Store D) (b : Block D) : Store D :=
  Function.update st (b.hash E) (some b)

/-- `getBlock`; `none` is its error. -/
def getBlock (st : Store D) (digest : D) : Option (Block D) := st digest

theorem getBlock_storeBlock {E : Env D} {st : Store D} {b b' : Block D} {digest : D}
    (h : getBlock (storeBlock E st b) digest = some b') :
    digest = b.hash E ∧ b' = b ∨ getBlock st digest = some b' := by
  unfold getBlock storeBlock at h
  by_cases hd : digest = b.hash E
  · subst hd
    rw [Function.update_self] at h
    exact Or.inl ⟨rfl, (Option.some.inj h).symm⟩
  · rw [Function.update_of_ne hd] at h
    exact Or.inr h

/-- The block is in the store. -/
def Stored (E : Env D) (st : Store D) (b : Block D) : Prop := getBlock st (b.hash E) = some b

/-- Where `run` is. -/
inductive Work (D : Type) where
  /-- Waiting for a block. -/
  | idle
  /-- In the ancestor loop: `queue` is what it has met, `current` the last of it. -/
  | walk (queue : List (Block D)) (current : Block D)
  /-- In the emission loop, with these blocks still to come. -/
  | emit (rest : List (Block D))
  /-- In the loop of the DAG commitor. -/
  | bfs (queue : List (Block D))

/-- The blocks that `run` holds in hand. -/
def Work.pending : Work D → List (Block D)
  | .idle => []
  | .walk queue _ => queue
  | .emit rest => rest
  | .bfs queue => queue

structure Commitor (D : Type) where
  lastView : ℤ
  lastHeight : ℕ
  committedBlcoks : List D
  blocksChan : List (Block D)
  work : Work D

/-- The capacity of `blocksChan`. -/
def chanCap : ℕ := 100

namespace Commitor

variable (E : Env D)

/-- `NewCommitor` and `NewDAGCommitor`. -/
def new : Commitor D := ⟨0, HEIGHT_1, [], [], .idle⟩

/-- The block lies before the last one that went through. -/
def filtered (c : Commitor D) (b : Block D) : Prop :=
  b.view < c.lastView ∨ (b.view = c.lastView ∧ b.height < c.lastHeight)

instance (c : Commitor D) (b : Block D) : Decidable (c.filtered b) := by
  unfold filtered; infer_instance

/-- `Commit`; `none` while the channel is full. -/
def commit (c : Commitor D) (b : Block D) : Option (Commitor D) :=
  if c.filtered b then some c
  else if c.blocksChan.length < chanCap then
    some { c with lastView := b.view, lastHeight := b.height, blocksChan := c.blocksChan ++ [b] }
  else none

/-- One step of `Commitor.run`, with the blocks it emits; `none` while there is nothing to do. A
parent that is not in the store is asked for again. -/
def run (st : Store D) (c : Commitor D) : Option (Commitor D × List (Block D)) :=
  match c.work with
  | .idle =>
    match c.blocksChan with
    | [] => none
    | b :: rest =>
      if b.hash E ∈ c.committedBlcoks then some ({ c with blocksChan := rest }, [])
      else some ({ c with blocksChan := rest, work := .walk [b] b }, [])
  | .walk queue current =>
    match current.qc with
    | none => some ({ c with work := .emit queue.reverse }, [])
    | some qc =>
      match getBlock st qc.parentBlockHash with
      | none => some (c, [])
      | some b =>
        if b.hash E ∈ c.committedBlcoks then some ({ c with work := .emit queue.reverse }, [])
        else some ({ c with work := .walk (queue ++ [b]) b }, [])
  | .emit [] => some ({ c with work := .idle }, [])
  | .emit (b :: rest) =>
    some ({ c with committedBlcoks := b.hash E :: c.committedBlcoks, work := .emit rest }, [b])
  | .bfs _ => none

/-- **What a step can do.** -/
inductive Step (E : Env D) (st : Store D) (c : Commitor D) : Commitor D → List (Block D) → Prop
  /-- The block on the channel is committed. -/
  | drop {b : Block D} {rest : List (Block D)} : c.work = .idle → c.blocksChan = b :: rest →
      b.hash E ∈ c.committedBlcoks → Step E st c { c with blocksChan := rest } []
  /-- The walk starts at the block on the channel. -/
  | take {b : Block D} {rest : List (Block D)} : c.work = .idle → c.blocksChan = b :: rest →
      b.hash E ∉ c.committedBlcoks →
      Step E st c { c with blocksChan := rest, work := .walk [b] b } []
  /-- The walk has come to a block without a parent. -/
  | root {queue : List (Block D)} {current : Block D} : c.work = .walk queue current →
      current.qc = none → Step E st c { c with work := .emit queue.reverse } []
  /-- The parent is not in the store. -/
  | wait {queue : List (Block D)} {current : Block D} {qc : BlockQC D} :
      c.work = .walk queue current → current.qc = some qc → getBlock st qc.parentBlockHash = none →
      Step E st c c []
  /-- The parent is committed. -/
  | turn {queue : List (Block D)} {current p : Block D} {qc : BlockQC D} :
      c.work = .walk queue current → current.qc = some qc → getBlock st qc.parentBlockHash = some p →
      p.hash E ∈ c.committedBlcoks → Step E st c { c with work := .emit queue.reverse } []
  /-- The walk goes on to the parent. -/
  | climb {queue : List (Block D)} {current p : Block D} {qc : BlockQC D} :
      c.work = .walk queue current → current.qc = some qc → getBlock st qc.parentBlockHash = some p →
      p.hash E ∉ c.committedBlcoks → Step E st c { c with work := .walk (queue ++ [p]) p } []
  /-- The next block of the way down is emitted. -/
  | emit {b : Block D} {rest : List (Block D)} : c.work = .emit (b :: rest) →
      Step E st c { c with committedBlcoks := b.hash E :: c.committedBlcoks, work := .emit rest } [b]
  /-- The way down has come to its end. -/
  | finish : c.work = .emit [] → Step E st c { c with work := .idle } []

theorem step_of_run {E : Env D} {st : Store D} {c c' : Commitor D} {bs : List (Block D)}
    (h : run E st c = some (c', bs)) : Step E st c c' bs := by
  unfold run at h
  split at h
  · next hw =>
    split at h
    · cases h
    · next hch =>
      split at h
      · next hcom =>
        cases h
        exact Step.drop hw hch hcom
      · next hcom =>
        cases h
        exact Step.take hw hch hcom
  · next hw =>
    split at h
    · next hqc =>
      cases h
      exact Step.root hw hqc
    · next hqc =>
      split at h
      · next hp =>
        cases h
        exact Step.wait hw hqc hp
      · next hp =>
        split at h
        · next hcom =>
          cases h
          exact Step.turn hw hqc hp hcom
        · next hcom =>
          cases h
          exact Step.climb hw hqc hp hcom
  · next hw =>
    cases h
    exact Step.finish hw
  · next hw =>
    cases h
    exact Step.emit hw
  · cases h

theorem run_last {E : Env D} {st : Store D} {c c' : Commitor D} {bs : List (Block D)}
    (h : run E st c = some (c', bs)) :
    c'.lastView = c.lastView ∧ c'.lastHeight = c.lastHeight := by
  cases step_of_run h <;> exact ⟨rfl, rfl⟩

end Commitor

namespace DAGCommitor

variable (E : Env D)

/-- The referenced blocks that are in the store. -/
def resolved (st : Store D) (b : Block D) : List (Block D) :=
  b.references.filterMap fun qc => getBlock st qc.parentBlockHash

/-- One step of `DAGCommitor.run`, with the blocks it emits; `none` while there is nothing to do. -/
def run (st : Store D) (c : Commitor D) : Option (Commitor D × List (Block D)) :=
  match c.work with
  | .idle =>
    match c.blocksChan with
    | [] => none
    | b :: rest => some ({ c with blocksChan := rest, work := .bfs [b] }, [])
  | .bfs [] => some ({ c with work := .idle }, [])
  | .bfs (b :: rest) =>
    if b.hash E ∈ c.committedBlcoks then some ({ c with work := .bfs rest }, [])
    else some ({ c with committedBlcoks := b.hash E :: c.committedBlcoks,
                        work := .bfs (rest ++ resolved st b) }, [b])
  | _ => none

/-- **What a step can do.** -/
inductive Step (E : Env D) (st : Store D) (c : Commitor D) : Commitor D → List (Block D) → Prop
  /-- A block is taken off the channel. -/
  | take {b : Block D} {rest : List (Block D)} : c.work = .idle → c.blocksChan = b :: rest →
      Step E st c { c with blocksChan := rest, work := .bfs [b] } []
  /-- The queue is empty. -/
  | finish : c.work = .bfs [] → Step E st c { c with work := .idle } []
  /-- The block at the head of the queue is committed. -/
  | skip {b : Block D} {rest : List (Block D)} : c.work = .bfs (b :: rest) →
      b.hash E ∈ c.committedBlcoks → Step E st c { c with work := .bfs rest } []
  /-- The block at the head of the queue is emitted. -/
  | emit {b : Block D} {rest : List (Block D)} : c.work = .bfs (b :: rest) →
      b.hash E ∉ c.committedBlcoks →
      Step E st c { c with committedBlcoks := b.hash E :: c.committedBlcoks
                           work := .bfs (rest ++ resolved st b) } [b]

theorem step_of_run {E : Env D} {st : Store D} {c c' : Commitor D} {bs : List (Block D)}
    (h : run E st c = some (c', bs)) : Step E st c c' bs := by
  unfold run at h
  split at h
  · next hw =>
    split at h
    · cases h
    · next hch =>
      cases h
      exact Step.take hw hch
  · next hw =>
    cases h
    exact Step.finish hw
  · next hw =>
    split at h
    · next hcom =>
      cases h
      exact Step.skip hw hcom
    · next hcom =>
      cases h
      exact Step.emit hw hcom
  · cases h

theorem run_last {E : Env D} {st : Store D} {c c' : Commitor D} {bs : List (Block D)}
    (h : run E st c = some (c', bs)) :
    c'.lastView = c.lastView ∧ c'.lastHeight = c.lastHeight := by
  cases step_of_run h <;> exact ⟨rfl, rfl⟩

end DAGCommitor

/-! ## Commitors at work -/

/-- A commitor, with the blocks `Commit` was called with, those that went through, and the blocks that
were emitted. -/
structure Feed (D : Type) where
  commitor : Commitor D
  calls : List (Block D)
  passed : List (Block D)
  log : List (Block D)

namespace Feed

variable (run : Commitor D → Option (Commitor D × List (Block D)))

def new : Feed D := ⟨Commitor.new, [], [], []⟩

/-- `Commit` is called. -/
inductive Commits : Feed D → Feed D → Prop
  | call {s : Feed D} {b : Block D} {c : Commitor D} : s.commitor.commit b = some c →
      Commits s ⟨c, s.calls ++ [b], if s.commitor.filtered b then s.passed else s.passed ++ [b], s.log⟩

/-- `run` takes a step. -/
inductive Runs : Feed D → Feed D → Prop
  | step {s : Feed D} {c : Commitor D} {bs : List (Block D)} :
      run s.commitor = some (c, bs) → Runs s ⟨c, s.calls, s.passed, s.log ++ bs⟩

/-- Calls of `Commit` and steps of `run`, in any order. -/
def Step (s s' : Feed D) : Prop := Commits s s' ∨ Runs run s s'

abbrev Reach (s : Feed D) : Prop := Relation.ReflTransGen (Step run) new s

/-- Steps of `run` only. -/
abbrev Drains : Feed D → Feed D → Prop := Relation.ReflTransGen (Runs run)

/-- `run` waits for a block. -/
def Quiet (s : Feed D) : Prop := run s.commitor = none

variable {run}

theorem Step.calls_subset {s s' : Feed D} (h : Step run s s') : ∀ b ∈ s.calls, b ∈ s'.calls := by
  rcases h with h | h
  · cases h with
    | call _ => exact fun b hb => List.mem_append_left _ hb
  · cases h with
    | step _ => exact fun b hb => hb

variable (run) in
/-- `Commit` is called with the blocks in this order, and `run` takes `n` steps after each call, or as many
as it can. -/
def feed (n : ℕ) (s : Feed D) : List (Block D) → Feed D
  | [] => s
  | b :: bs => feed n (worked n (called s b)) bs
where
  called (s : Feed D) (b : Block D) : Feed D :=
    match s.commitor.commit b with
    | none => s
    | some c =>
      ⟨c, s.calls ++ [b], if s.commitor.filtered b then s.passed else s.passed ++ [b], s.log⟩
  worked : ℕ → Feed D → Feed D
    | 0, s => s
    | n + 1, s =>
      match run s.commitor with
      | none => s
      | some (c, bs) => worked n ⟨c, s.calls, s.passed, s.log ++ bs⟩

theorem reach_called {s : Feed D} (hs : Reach run s) (b : Block D) : Reach run (feed.called s b) := by
  unfold feed.called
  split
  · exact hs
  · next h => exact hs.tail (Or.inl (Commits.call h))

theorem reach_worked {s : Feed D} (hs : Reach run s) (n : ℕ) : Reach run (feed.worked run n s) := by
  induction n generalizing s with
  | zero => exact hs
  | succ n ih =>
    unfold feed.worked
    split
    · exact hs
    · next h => exact ih (hs.tail (Or.inr (Runs.step h)))

theorem reach_feed {s : Feed D} (hs : Reach run s) (n : ℕ) (bs : List (Block D)) :
    Reach run (feed run n s bs) := by
  induction bs generalizing s with
  | nil => exact hs
  | cons b bs ih => exact ih (reach_worked (reach_called hs b) n)

theorem Drains.reach {s s' : Feed D} (hs : Reach run s) (h : Drains run s s') : Reach run s' :=
  hs.trans (Relation.ReflTransGen.mono (fun _ _ => Or.inr) _ _ h)

theorem Drains.same {s s' : Feed D} (h : Drains run s s') :
    s'.calls = s.calls ∧ s'.passed = s.passed := by
  induction h with
  | refl => exact ⟨rfl, rfl⟩
  | tail _ hr ih =>
    cases hr with
    | step _ => exact ih

end Feed

theorem hash_mem_snoc {E : Env D} {log : List (Block D)} {b : Block D} {d : D} :
    (d = b.hash E ∨ ∃ a ∈ log, a.hash E = d) ↔ ∃ a ∈ log ++ [b], a.hash E = d := by
  constructor
  · rintro (rfl | ⟨a, ha, rfl⟩)
    · exact ⟨b, List.mem_append_right _ (List.mem_singleton_self _), rfl⟩
    · exact ⟨a, List.mem_append_left _ ha, rfl⟩
  · rintro ⟨a, ha, rfl⟩
    rcases List.mem_append.1 ha with ha | ha
    · exact Or.inr ⟨a, ha, rfl⟩
    · exact Or.inl (by rw [List.mem_singleton.1 ha])

end S2Pac
