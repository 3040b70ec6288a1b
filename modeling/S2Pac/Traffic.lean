import S2Pac.NodePool

/-!
# Messages by kind

Predicates on the messages of the protocols, to count them by.
-/

set_option linter.unusedSectionVars false

namespace S2Pac

open Lib

variable {D : Type} [DecidableEq D]

/-- The certificate is one for the block of `proposer` at `(view, height)`. -/
structure BlockQC.Names (q : BlockQC D) (view : ℤ) (height : ℕ) (proposer : NodeID) : Prop where
  view_eq : q.view = view
  height_eq : q.height = height
  proposer_eq : q.proposer = proposer

/-- The lexicographic order of views and heights. -/
def Before (a b : ℤ × ℕ) : Prop := a.1 < b.1 ∨ (a.1 = b.1 ∧ a.2 < b.2)

theorem Before.trans {a b c : ℤ × ℕ} (h : Before a b) (h' : Before b c) : Before a c := by
  unfold Before at *
  omega

theorem Before.irrefl (a : ℤ × ℕ) : ¬ Before a a := by
  unfold Before
  omega

namespace Msg

/-- The author of a message. -/
def author : Msg D → NodeID
  | .propose p => p.author
  | .vote v => v.author
  | .finVote fv => fv.author
  | .speedVote sv => sv.author
  | .elect e => e.author
  | .randomCoin r => r.author
  | .report r => r.author

/-- `Verify` of the message. -/
def verify (E : Env D) : Msg D → Option Bool
  | .propose p => p.verify E
  | .vote v => v.verify E
  | .finVote fv => fv.verify E
  | .speedVote sv => sv.verify E
  | .elect e => some e.verify
  | .randomCoin r => r.verify E
  | .report r => r.verify E

/-- A proposal for instance `k` at a height. -/
@[simp] def isPropose (k : Key) (height : ℕ) : Msg D → Bool
  | .propose p => decide ((p.view, p.author) = k ∧ p.height = height)
  | _ => false

/-- A proposal for a view and a height, of whomever. -/
@[simp] def isProposal (view : ℤ) (height : ℕ) : Msg D → Bool
  | .propose p => decide (p.view = view ∧ p.height = height)
  | _ => false

/-- A vote for instance `k` at a height. -/
@[simp] def isVote (k : Key) (height : ℕ) : Msg D → Bool
  | .vote v => decide ((v.view, v.proposer) = k ∧ v.height = height)
  | _ => false

/-- A `FinVoteMsg` of instance `k`. -/
@[simp] def isFinVote (k : Key) : Msg D → Bool
  | .finVote fv => decide ((fv.view, fv.author) = k)
  | _ => false

/-- A speed vote for instance `k`. -/
@[simp] def isSpeedVote (k : Key) : Msg D → Bool
  | .speedVote sv => decide ((sv.view, sv.proposer) = k)
  | _ => false

/-- A report of a view at a level. -/
@[simp] def isReport (view : ℤ) (level : ℕ) : Msg D → Bool
  | .report r => decide (r.view = view ∧ r.level = level)
  | _ => false

/-- A report of a view. -/
@[simp] def isReportOf (view : ℤ) : Msg D → Bool
  | .report r => decide (r.view = view)
  | _ => false

/-- An `ElectMsg` of a view. -/
@[simp] def isElect (view : ℤ) : Msg D → Bool
  | .elect e => decide (e.view = view)
  | _ => false

/-- A `RandomCoinMsg` of a view. -/
@[simp] def isCoin (view : ℤ) : Msg D → Bool
  | .randomCoin r => decide (r.view = view)
  | _ => false

/-- The certificates in a message. -/
def qcs : Msg D → List (BlockQC D)
  | .propose p => p.b.qc.toList ++ p.b.references ++
      p.docG.toList.flatMap fun d => d.shares.flatMap fun r => r.blockQc.toList
  | .finVote fv => fv.qc.toList
  | .report r => r.blockQc.toList
  | _ => []

/-- Node `i` is the author, of a message that is not about the coin. -/
def SignedBy (i : NodeID) : Msg D → Prop
  | .elect _ => True
  | .randomCoin _ => True
  | m => m.author = i

/-- A message whose parts say the same: a proposal names its block, and a `FinVoteMsg` carries a
certificate of its own instance. -/
def Proper : Msg D → Prop
  | .propose p => p.author = p.b.author ∧ p.view = p.b.view ∧ p.height = p.b.height ∧
      p.height ≤ HEIGHT_2
  | .finVote fv => ∀ qc, fv.qc = some qc → qc.view = fv.view ∧ qc.proposer = fv.author
  | _ => True

/-- The certificates of a message are those of blocks that come before it. -/
def Linked : Msg D → Prop
  | .propose p => (p.height = HEIGHT_1 → ∀ q, p.b.qc = some q → q.view < p.view) ∧
      (p.height = HEIGHT_2 → ∃ q, p.b.qc = some q ∧ q.Names p.view HEIGHT_1 p.author)
  | .finVote fv => ∀ q, fv.qc = some q → q.Names fv.view HEIGHT_2 fv.author
  | .report r => ∀ q, r.blockQc = some q → q.view ≤ r.view
  | _ => True

end Msg

theorem isVote_newVoteMsg {E : Env D} {self : NodeID} {p : ProposeMsg D}
    (hp : (Msg.propose p).Proper) (k : Key) (height : ℕ) :
    Msg.isVote k height (.vote (newVoteMsg E self p.b)) =
      decide ((p.view, p.author) = k ∧ p.height = height) := by
  obtain ⟨ha, hv, hh, -⟩ := hp
  simp only [Msg.isVote, newVoteMsg, ← ha, ← hv, ← hh]

theorem countP_isProposal {outs : List (NodeOut D)} {self : NodeID}
    (hauth : ∀ o ∈ outs, ∀ p, o.msg = some (.propose p) → p.author = self) (view : ℤ)
    (height : ℕ) : outs.countP (Out.carries (Msg.isProposal view height)) =
      outs.countP (Out.carries (Msg.isPropose (view, self) height)) := by
  refine List.countP_congr fun o ho => ?_
  rw [Out.carries_iff, Out.carries_iff]
  refine exists_congr fun m => and_congr_right fun hm => ?_
  cases m with
  | propose p => simp [hauth o ho p hm]
  | _ => rfl

/-- All messages are proper. -/
def AllProper (l : List (Msg D)) : Prop := ∀ m ∈ l, m.Proper

theorem AllProper.init (l : List (Msg D)) (m : Msg D) (h : AllProper (l ++ [m])) : AllProper l :=
  fun x hx => h x (List.mem_append_left _ hx)

end S2Pac
