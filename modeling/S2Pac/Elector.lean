import S2Pac.Message

/-!
# The elector

`core/elector.go`: the shares of a view are collected, one for each author, and when there are
`HightThreshold()` of them they are combined into the number that names the leader of the view.
-/

namespace S2Pac

variable {D : Type}

/-- The errors of `Aggregator.Append`. -/
inductive ElectErr where
  /-- `ErrUsedElect`. -/
  | usedElect (view : ℤ) (author : NodeID)
  /-- The shares do not combine. -/
  | recover
  deriving DecidableEq

structure Aggregator where
  elects : List ElectMsg
  used : List NodeID
  deriving DecidableEq

structure Elector where
  leaders : ℤ → Option NodeID
  aggregator : ℤ → Aggregator

/-- The leader that a combined signature names; `none` when it has fewer than four bytes, on which
the code panics. -/
def leaderOf (E : Env D) : Bytes → Option NodeID
  | b₀ :: b₁ :: b₂ :: b₃ :: _ =>
    let randint : ℤ := ((b₀.toNat * 256 + b₁.toNat) * 256 + b₂.toNat) * 256 + b₃.toNat
    some (randint % E.n)
  | _ => none

/-- `Aggregator.Append`; `none` where it panics. -/
def Aggregator.append (E : Env D) (a : Aggregator) (elect : ElectMsg) :
    Option (Aggregator × Except ElectErr NodeID) :=
  if elect.author ∈ a.used then some (a, .error (.usedElect elect.view elect.author))
  else
    let a' : Aggregator := ⟨a.elects ++ [elect], elect.author :: a.used⟩
    if a'.elects.length = E.hightThreshold then
      match E.recover (elect.hash E) (a'.elects.map ElectMsg.sigShare) with
      | none => some (a', .error .recover)
      | some qc => (leaderOf E qc).map fun leader => (a', .ok leader)
    else some (a', .ok NONE)

namespace Elector

/-- `NewElector`. -/
def new : Elector := ⟨fun _ => none, fun _ => ⟨[], []⟩⟩

/-- `Elector.Add`; `none` where it panics. -/
def add (E : Env D) (e : Elector) (elect : ElectMsg) : Option (Elector × Except ElectErr NodeID) :=
  match (e.aggregator elect.view).append E elect with
  | none => none
  | some (a, res) =>
    let e' : Elector := { e with aggregator := Function.update e.aggregator elect.view a }
    match res with
    | .error err => some (e', .error err)
    | .ok leader =>
      if leader = NONE then some (e', .ok leader)
      else some ({ e' with leaders := Function.update e'.leaders elect.view (some leader) }, .ok leader)

end Elector

end S2Pac
