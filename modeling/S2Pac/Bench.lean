import S2Pac.Node

/-!
# An instance at work

A node that is handed messages for one instance, in any order, while the goroutines of the instance take
their steps. The three protocols have different goroutines; `run` is what a step of one does, `none` while it
has to wait.
-/

namespace S2Pac

open Lib

variable {D : Type} {J : Type}

/-- A node with one instance at work: the messages that were handed to the instance, what was sent and the
callbacks that the main loop has taken, oldest first. -/
structure Bench (D J : Type) where
  node : Node D J
  handed : List J
  outs : List (NodeOut D)
  taken : List Key

namespace Bench

variable (run : Node D J → Key → J → Option (Moved D J))

/-- The bench of a node that has just been made. -/
def new (E : Env D) : Bench D J := ⟨Node.new E, [], [], []⟩

/-- A handler starts a goroutine with a message. -/
def hand (k : Key) (b : Bench D J) (j : J) : Bench D J :=
  { b with node := b.node.go k [j], handed := b.handed ++ [j] }

/-- A goroutine takes a step. -/
inductive Step : Bench D J → Bench D J → Prop
  | job {b : Bench D J} {i : ℕ} {k : Key} {j : J} {r : Moved D J} : b.node.tasks[i]? = some (k, j) →
      run { b.node with tasks := b.node.tasks.eraseIdx i } k j = some r →
      Step b { b with node := r.1, outs := b.outs ++ r.2 }

/-- **Instance `k` at work**, from the start. A handler starts a goroutine, a goroutine takes a step, the main
loop takes a callback off the channel, the pool makes a batch. -/
inductive Course (E : Env D) (self : NodeID) (k : Key) : Bench D J → Prop
  | start : Course E self k (new E)
  | hand {b : Bench D J} (j : J) : Course E self k b → Course E self k (b.hand k j)
  | work {b b' : Bench D J} : Course E self k b → Step run b b' → Course E self k b'
  | callback {b : Bench D J} {k' : Key} {rest : List Key} : Course E self k b →
      b.node.callBackSpb = k' :: rest → Course E self k
        { b with node := { b.node with callBackSpb := rest }, taken := b.taken ++ [k'] }
  | makeBatch {b : Bench D J} (txs : List Bytes) : Course E self k b →
      Course E self k { b with node := b.node.makeBatch E self txs }

/-- The messages `js` are handed over. -/
def handAll (k : Key) (js : List J) (b : Bench D J) : Bench D J := js.foldl (hand k) b

/-- The oldest goroutine takes a step, `n` times. -/
def work : ℕ → Bench D J → Bench D J
  | 0, b => b
  | n + 1, b =>
    match b.node.tasks[0]? with
    | none => b
    | some (k, j) =>
      match run { b.node with tasks := b.node.tasks.eraseIdx 0 } k j with
      | none => b
      | some r => work n { b with node := r.1, outs := b.outs ++ r.2 }

variable {run} {E : Env D} {self : NodeID} {k : Key} {b : Bench D J}

theorem Course.handAll (hb : Course run E self k b) (js : List J) :
    Course run E self k (b.handAll k js) := by
  induction js generalizing b with
  | nil => exact hb
  | cons j js ih => exact ih (hb.hand j)

theorem Course.workAll (hb : Course run E self k b) (n : ℕ) : Course run E self k (b.work run n) := by
  induction n generalizing b with
  | zero => exact hb
  | succ n ih =>
    unfold Bench.work
    split
    · exact hb
    · next hi =>
      split
      · exact hb
      · next hr => exact ih (hb.work (Step.job hi hr))

theorem not_step (h : b.node.tasks = []) (b' : Bench D J) : ¬ Step run b b' := by
  rintro ⟨hi, -⟩
  simp [h] at hi

end Bench

/-- The messages of an instance: its two proposals, the votes at each height and the speed votes. -/
structure Inputs (D : Type) where
  first : ProposeMsg D
  second : ProposeMsg D
  votes₁ : List (VoteMsg D)
  votes₂ : List (VoteMsg D)
  speedVotes : List (SpeedVoteMsg D)

end S2Pac
