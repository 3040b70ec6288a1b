import Mathlib.Data.List.Dedup
import S2Pac.Message

/-!
# The checks of certificates

`BlockQC.Verify` and `DocGQCMsg.Verify` of `core/message.go`. The first combines the shares of a certificate
over the digest of its votes and returns whether that has failed, so that it accepts exactly the
certificates that it should turn away. The second verifies every report and drops the results.
-/

namespace S2Pac

variable {D : Type}

/-! ## Shares -/

/-- How many indices the valid ones of some shares have. -/
def validIndices (valid : D → Bytes → Bool) (index : Bytes → ℕ) (digest : D) (shares : List Bytes) :
    ℕ := ((shares.filter (valid digest)).map index).dedup.length

theorem validIndices_perm (valid : D → Bytes → Bool) (index : Bytes → ℕ) (digest : D)
    {shares shares' : List Bytes} (h : shares.Perm shares') :
    validIndices valid index digest shares = validIndices valid index digest shares' :=
  ((h.filter _).map _).dedup.length_eq

/-- **What is assumed of `tbls.Recover`**: it returns an error exactly when it is given fewer than `T`
valid shares of distinct indices. -/
def FailsBelow (E : Env D) (T : ℕ) (valid : D → Bytes → Bool) (index : Bytes → ℕ) : Prop :=
  ∀ digest shares, E.recover digest shares = none ↔ validIndices valid index digest shares < T

/-- The vote is one for the block of the certificate. -/
structure BlockQC.CountsVote (q : BlockQC D) (v : VoteMsg D) : Prop where
  view : v.view = q.view
  height : v.height = q.height
  proposer : v.proposer = q.proposer
  blockHash : v.blockHash = q.parentBlockHash

variable {E : Env D}

theorem BlockQC.verify_eq {q : BlockQC D} {v : VoteMsg D} (h : q.CountsVote v)
    (entries : List (NodeID × Bytes)) :
    q.verify E entries = (E.recover (v.hash E) (entries.map Prod.snd)).isNone := by
  rw [BlockQC.verify, VoteMsg.hash, h.view, h.height, h.proposer, h.blockHash]

/-- `BlockQC.Verify` accepts when there are too few shares, in whatever order it visits them. -/
theorem BlockQC.verify_iff {T : ℕ} {valid : D → Bytes → Bool} {index : Bytes → ℕ}
    (hrec : FailsBelow E T valid index) {q : BlockQC D} {v : VoteMsg D} (h : q.CountsVote v)
    {entries : List (NodeID × Bytes)} (horder : entries.Perm q.shares) :
    q.verify E entries = true ↔
      validIndices valid index (v.hash E) (q.shares.map Prod.snd) < T := by
  rw [q.verify_eq h, Option.isNone_iff_eq_none, hrec,
    validIndices_perm valid index _ (horder.map Prod.snd)]

/-! ## Reports -/

theorem Env.checkSig_isSome_iff {author : NodeID} {digest : D} {sig : Bytes} :
    (E.checkSig author digest sig).isSome ↔ author ∈ E.members := by
  unfold Env.checkSig
  split <;> simp [*]

theorem Env.checkSig_eq_true_iff {author : NodeID} {digest : D} {sig : Bytes} :
    E.checkSig author digest sig = some true ↔
      author ∈ E.members ∧ E.verify author digest sig = true := by
  unfold Env.checkSig
  split <;> simp [*]

/-- `DocGQCMsg.Verify` returns, and then it accepts, when every author has a key. -/
theorem DocGQCMsg.verify_iff (d : DocGQCMsg D) :
    d.verify E = some true ↔ ∀ r ∈ d.shares, r.author ∈ E.members := by
  unfold DocGQCMsg.verify
  rw [ite_eq_left_iff]
  simp only [reduceCtorEq, imp_false, Decidable.not_not, List.all_eq_true]
  exact forall₂_congr fun r _ => Env.checkSig_isSome_iff

/-- **What the checks accept.** `BlockQC.Verify` is wrong on every certificate: it is not the case that it
accepts exactly when the shares combine to a threshold signature on the digest of the votes. And
`DocGQCMsg.Verify` accepts exactly when every report verifies, if and only if every report carries a good
signature or one of them is by somebody outside the committee, at which it panics. -/
theorem certificate_checks_iff {T : ℕ} {valid : D → Bytes → Bool} {index : Bytes → ℕ}
    (hrec : FailsBelow E T valid index) :
    (∀ (q : BlockQC D) (v : VoteMsg D) (entries : List (NodeID × Bytes)), q.CountsVote v →
      entries.Perm q.shares →
      ¬ (q.verify E entries = true ↔
        T ≤ validIndices valid index (v.hash E) (q.shares.map Prod.snd))) ∧
    ∀ d : DocGQCMsg D,
      (d.verify E = some true ↔ ∀ r ∈ d.shares, r.verify E = some true) ↔
        (∃ r ∈ d.shares, r.author ∉ E.members) ∨
          ∀ r ∈ d.shares, E.verify r.author (r.hash E) r.signature = true := by
  constructor
  · intro q v entries hv horder
    rw [q.verify_iff hrec hv horder]
    omega
  · intro d
    have hall : (∀ r ∈ d.shares, r.verify E = some true) ↔
        (∀ r ∈ d.shares, r.author ∈ E.members) ∧
          ∀ r ∈ d.shares, E.verify r.author (r.hash E) r.signature = true := by
      simp only [ReportMsg.verify, Env.checkSig_eq_true_iff, forall_and]
    have hout : (∃ r ∈ d.shares, r.author ∉ E.members) ↔
        ¬ ∀ r ∈ d.shares, r.author ∈ E.members := by
      simp only [not_forall, exists_prop]
    rw [d.verify_iff, hall, hout]
    tauto

/-! Four nodes, three of whose shares combine; a share is one byte, the number of the node. -/

namespace ThreeOfFour

def valid (_ : ℕ) (s : Bytes) : Bool := s.length = 1

def index (s : Bytes) : ℕ := (s.headD 0).toNat

def env : Env ℕ :=
  { Env.plain 4 fun _ => 0 with
    verify := fun _ _ sig => sig = [1]
    recover := fun digest shares =>
      if validIndices valid index digest shares < 3 then none else some [0, 0, 0, 0] }

theorem failsBelow : FailsBelow env 3 valid index := by
  intro digest shares
  simp only [env]
  split <;> simp [*]

/-- A certificate with the shares of nodes 0, 1 and 2. -/
def qc : BlockQC ℕ := ⟨0, 0, 0, 7, [(0, [0]), (1, [1]), (2, [2])]⟩

/-- A vote for its block. -/
def vote : VoteMsg ℕ := ⟨1, 0, 7, 0, 0, []⟩

end ThreeOfFour

/-- The certificate is good and is not accepted; two reports that carry good signatures are. -/
theorem certificate_checks_iff_three :
    ¬ (ThreeOfFour.qc.verify ThreeOfFour.env ThreeOfFour.qc.shares = true ↔
        3 ≤ validIndices ThreeOfFour.valid ThreeOfFour.index
          (ThreeOfFour.vote.hash ThreeOfFour.env) (ThreeOfFour.qc.shares.map Prod.snd)) ∧
      (DocGQCMsg.verify ThreeOfFour.env ⟨0, 1, [⟨0, 0, 1, none, [1]⟩, ⟨1, 0, 1, none, [1]⟩]⟩ =
          some true ↔
        ∀ r ∈ ([⟨0, 0, 1, none, [1]⟩, ⟨1, 0, 1, none, [1]⟩] : List (ReportMsg ℕ)),
          r.verify ThreeOfFour.env = some true) := by
  obtain ⟨hqc, hdocG⟩ := certificate_checks_iff ThreeOfFour.failsBelow
  refine ⟨hqc _ _ _ ⟨rfl, rfl, rfl, rfl⟩ (List.Perm.refl _), (hdocG _).2 (Or.inr ?_)⟩
  decide

/-- **The checks are wrong.** A certificate with three valid shares of different nodes is turned away, the
same certificate without any share is accepted, and so is a list with a report that does not verify. -/
theorem certificate_checks_fail :
    FailsBelow ThreeOfFour.env 3 ThreeOfFour.valid ThreeOfFour.index ∧
      3 ≤ validIndices ThreeOfFour.valid ThreeOfFour.index
        (ThreeOfFour.vote.hash ThreeOfFour.env) (ThreeOfFour.qc.shares.map Prod.snd) ∧
      ThreeOfFour.qc.verify ThreeOfFour.env ThreeOfFour.qc.shares = false ∧
      BlockQC.verify ThreeOfFour.env { ThreeOfFour.qc with shares := [] } [] = true ∧
      DocGQCMsg.verify ThreeOfFour.env ⟨0, 1, [⟨0, 0, 1, none, []⟩]⟩ = some true ∧
      ReportMsg.verify ThreeOfFour.env ⟨0, 0, 1, none, []⟩ = some false := by
  refine ⟨ThreeOfFour.failsBelow, ?_, ?_, ?_, ?_, ?_⟩ <;> decide

end S2Pac
