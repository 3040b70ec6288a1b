import Mathlib.Data.Nat.Notation
import Mathlib.Data.Int.Notation
import Mathlib.Logic.Function.Basic
import Mathlib.Data.List.Nodup
import Mathlib.Tactic.Common

/-!
# Committee, blocks and messages

`core/config.go`, `core/message.go`, the hasher of `crypto/crypto.go` and the batches of
`pool/message.go`.

What lies outside the repository enters as a parameter, `Env`: SHA-256, ed25519, and the threshold
signatures of `kyber`. The digest type `D` is a parameter too, with the zero digest `crypto.Digest{}`
as a distinguished value; nothing is assumed of these functions here.

A Go `int` is a `ℤ`, a `uint8` (heights, levels) a `ℕ`, and a byte slice a `List UInt8`. A pointer
that the code tests for `nil` is an `Option`. Views and ids are not wrapped around: this is the code while
they stay below `2 ^ 63`.
-/

namespace S2Pac

abbrev Bytes : Type := List UInt8

abbrev NodeID : Type := ℤ

/-- The node id that stands for nobody; as an address, for everybody else. -/
def NONE : NodeID := -1

abbrev HEIGHT_1 : ℕ := 0
abbrev HEIGHT_2 : ℕ := 1

theorem height_cases {height : ℕ} (h : height ≤ HEIGHT_2) :
    height = HEIGHT_1 ∨ height = HEIGHT_2 := by
  simp only [HEIGHT_1, HEIGHT_2] at *
  omega

abbrev LEVEL_2 : ℕ := 0
abbrev LEVEL_1 : ℕ := 1
abbrev LEVEL_0 : ℕ := 2

/-- The committee, with members `0, …, n - 1`, the number of nodes that stay silent, and the
cryptography.

`verify i d sig` is `ed25519.Verify` under the key of member `i`, `sign i` signs with that key,
`tsSign i` makes a signature share of `i`, and `recover` is `tbls.Recover` for the committee's public
polynomial, threshold and size; `none` is its error. -/
structure Env (D : Type) where
  n : ℕ
  faults : ℤ
  sum256 : Bytes → D
  zero : D
  digestBytes : D → Bytes
  sign : NodeID → D → Bytes
  verify : NodeID → D → Bytes → Bool
  tsSign : NodeID → D → Bytes
  recover : D → List Bytes → Option Bytes

namespace Env

variable {D : Type} (E : Env D)

/-- `2f + 1`. -/
def hightThreshold : ℕ := 2 * ((E.n - 1) / 3) + 1

/-- `f + 1`. -/
def lowThreshold : ℕ := (E.n - 1) / 3 + 1

/-- The ids of the committee. -/
def members : List NodeID := (List.range E.n).map fun i : ℕ => (i : ℤ)

theorem members_nodup : E.members.Nodup :=
  List.Nodup.map (fun _ _ h => Int.ofNat_inj.1 h) List.nodup_range

theorem mem_members {i : ℤ} : i ∈ E.members ↔ 0 ≤ i ∧ i < E.n := by
  simp only [members, List.mem_map, List.mem_range]
  constructor
  · rintro ⟨k, hk, rfl⟩
    omega
  · rintro ⟨h₀, hn⟩
    exact ⟨i.toNat, by omega, by omega⟩

/-- `Signature.Verify` under `committee.Name(author)`. For an id outside the committee that is the
empty key, on which `ed25519.Verify` panics (`none`). -/
def checkSig (author : NodeID) (digest : D) (sig : Bytes) : Option Bool :=
  if author ∈ E.members then some (E.verify author digest sig) else none

/-- A committee to compute with: digests are numbers, every signature is empty and accepted, and
`coin` gives the last of the four bytes that name the leader. -/
def plain (n : ℕ) (coin : ℕ → UInt8) : Env ℕ where
  n := n
  faults := 0
  sum256 := fun bs => bs.foldl (fun d b => d * 256 + b.toNat + 1) 0
  zero := 0
  digestBytes := fun _ => []
  sign := fun _ _ => []
  verify := fun _ _ _ => true
  tsSign := fun _ _ => []
  recover := fun d _ => some [0, 0, 0, coin d]

end Env

/-- `strconv.AppendInt(nil, x, 2)`. -/
def appendInt (x : ℤ) : Bytes :=
  let digits := (Nat.toDigits 2 x.natAbs).map fun c => UInt8.ofNat c.toNat
  if x < 0 then 45 :: digits else digits

/-- A batch of transactions. -/
structure Batch where
  id : ℤ
  txs : List Bytes
  deriving DecidableEq

variable {D : Type}

/-- A quorum certificate: `proposer`'s block of `(view, height)` has the hash `parentBlockHash`. -/
structure BlockQC (D : Type) where
  view : ℤ
  height : ℕ
  proposer : NodeID
  parentBlockHash : D
  shares : List (NodeID × Bytes)
  deriving DecidableEq

structure Block (D : Type) where
  author : NodeID
  view : ℤ
  height : ℕ
  batch : Batch
  qc : Option (BlockQC D)
  references : List (BlockQC D)
  deriving DecidableEq

/-- The byte string that `Block.Hash` feeds to SHA-256. -/
def Block.preimage (b : Block D) : Bytes :=
  appendInt b.author ++ appendInt b.view ++ appendInt b.height ++ appendInt b.batch.id

def Block.hash (E : Env D) (b : Block D) : D := E.sum256 b.preimage

structure ReportMsg (D : Type) where
  author : NodeID
  view : ℤ
  level : ℕ
  blockQc : Option (BlockQC D)
  signature : Bytes
  deriving DecidableEq

structure DocGQCMsg (D : Type) where
  view : ℤ
  level : ℕ
  shares : List (ReportMsg D)
  deriving DecidableEq

structure ProposeMsg (D : Type) where
  author : NodeID
  b : Block D
  view : ℤ
  height : ℕ
  docG : Option (DocGQCMsg D)
  signature : Bytes
  deriving DecidableEq

structure VoteMsg (D : Type) where
  author : NodeID
  proposer : NodeID
  blockHash : D
  view : ℤ
  height : ℕ
  signature : Bytes
  deriving DecidableEq

structure FinVoteMsg (D : Type) where
  author : NodeID
  view : ℤ
  qc : Option (BlockQC D)
  signature : Bytes
  deriving DecidableEq

structure SpeedVoteMsg (D : Type) where
  author : NodeID
  proposer : NodeID
  blockHash : D
  view : ℤ
  signature : Bytes
  deriving DecidableEq

structure ElectMsg where
  author : NodeID
  view : ℤ
  sigShare : Bytes
  deriving DecidableEq

structure RandomCoinMsg where
  leader : NodeID
  view : ℤ
  author : NodeID
  signature : Bytes
  deriving DecidableEq

/-- The messages that the main loops switch over. -/
inductive Msg (D : Type) where
  | propose (p : ProposeMsg D)
  | vote (v : VoteMsg D)
  | finVote (fv : FinVoteMsg D)
  | speedVote (sv : SpeedVoteMsg D)
  | elect (e : ElectMsg)
  | randomCoin (r : RandomCoinMsg)
  | report (r : ReportMsg D)
  deriving DecidableEq

/-! ## Digests of messages -/

section Hashes

variable (E : Env D)

def ProposeMsg.hash (p : ProposeMsg D) : D :=
  E.sum256 (appendInt p.author ++ appendInt p.view ++ appendInt p.height ++
    E.digestBytes (p.b.hash E))

def VoteMsg.hash (v : VoteMsg D) : D :=
  E.sum256 (appendInt v.view ++ appendInt v.height ++ appendInt v.proposer ++
    E.digestBytes v.blockHash)

def FinVoteMsg.hash (f : FinVoteMsg D) : D := E.sum256 (appendInt f.author ++ appendInt f.view)

def SpeedVoteMsg.hash (v : SpeedVoteMsg D) : D :=
  E.sum256 (appendInt v.view ++ appendInt v.proposer ++ E.digestBytes v.blockHash)

def ElectMsg.hash (e : ElectMsg) : D := E.sum256 (appendInt e.view)

def RandomCoinMsg.hash (r : RandomCoinMsg) : D :=
  E.sum256 (appendInt r.view ++ appendInt r.leader ++ appendInt r.author)

def ReportMsg.hash (r : ReportMsg D) : D :=
  E.sum256 (appendInt r.author ++ appendInt r.view ++ appendInt r.level)

/-! ## Signing and verifying -/

/-- `NewProposeMsg` at node `self`. -/
def newProposeMsg (self : NodeID) (b : Block D) : ProposeMsg D :=
  let p : ProposeMsg D := ⟨b.author, b, b.view, b.height, none, []⟩
  { p with signature := E.sign self (p.hash E) }

def newVoteMsg (author : NodeID) (b : Block D) : VoteMsg D :=
  let v : VoteMsg D := ⟨author, b.author, b.hash E, b.view, b.height, []⟩
  { v with signature := E.sign author (v.hash E) }

def newFinVoteMsg (author : NodeID) (view : ℤ) (qc : Option (BlockQC D)) : FinVoteMsg D :=
  let f : FinVoteMsg D := ⟨author, view, qc, []⟩
  { f with signature := E.sign author (f.hash E) }

def newSpeedVoteMsg (author : NodeID) (qc : BlockQC D) : SpeedVoteMsg D :=
  let v : SpeedVoteMsg D := ⟨author, qc.proposer, qc.parentBlockHash, qc.view, []⟩
  { v with signature := E.sign author (v.hash E) }

def newElectMsg (author : NodeID) (view : ℤ) : ElectMsg :=
  let e : ElectMsg := ⟨author, view, []⟩
  { e with sigShare := E.tsSign author (e.hash E) }

def newRandomCoinMsg (leader author : NodeID) (view : ℤ) : RandomCoinMsg :=
  let r : RandomCoinMsg := ⟨leader, view, author, []⟩
  { r with signature := E.sign author (r.hash E) }

def newReportMsg (author : NodeID) (view : ℤ) (level : ℕ) (qc : Option (BlockQC D)) : ReportMsg D :=
  let r : ReportMsg D := ⟨author, view, level, qc, []⟩
  { r with signature := E.sign author (r.hash E) }

def ProposeMsg.verify (p : ProposeMsg D) : Option Bool := E.checkSig p.author (p.hash E) p.signature

def VoteMsg.verify (v : VoteMsg D) : Option Bool := E.checkSig v.author (v.hash E) v.signature

def FinVoteMsg.verify (f : FinVoteMsg D) : Option Bool := E.checkSig f.author (f.hash E) f.signature

def SpeedVoteMsg.verify (v : SpeedVoteMsg D) : Option Bool :=
  E.checkSig v.author (v.hash E) v.signature

def RandomCoinMsg.verify (r : RandomCoinMsg) : Option Bool :=
  E.checkSig r.author (r.hash E) r.signature

def ReportMsg.verify (r : ReportMsg D) : Option Bool := E.checkSig r.author (r.hash E) r.signature

/-- `SignatureShare.Verify` accepts every share. -/
def ElectMsg.verify (_e : ElectMsg) : Bool := true

/-- `BlockQC.Verify`, which visits the shares in the order of `entries`. It returns `err != nil`. -/
def BlockQC.verify (q : BlockQC D) (entries : List (NodeID × Bytes)) : Bool :=
  let digest := E.sum256 (appendInt q.view ++ appendInt q.height ++ appendInt q.proposer ++
    E.digestBytes q.parentBlockHash)
  (E.recover digest (entries.map Prod.snd)).isNone

/-- Every report is checked and the results are dropped. -/
def DocGQCMsg.verify (d : DocGQCMsg D) : Option Bool :=
  if d.shares.all fun r => (r.verify E).isSome then some true else none

/-- `p.DocG == nil || p.DocG.Verify(committee)`. -/
def ProposeMsg.verifyDocG (p : ProposeMsg D) : Option Bool :=
  match p.docG with
  | none => some true
  | some d => d.verify E

end Hashes

end S2Pac
