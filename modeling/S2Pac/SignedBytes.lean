import Mathlib.Data.Int.CharZero
import S2Pac.Identity

/-!
# What the signed bytes of a message identify

Six kinds of messages carry an ed25519 signature over their `Hash`. Every `Hash` method writes numbers in
base 2, one after the other, and three of them a digest behind these; there is no tag for the type and
no separator. The bytes identify a message among those of its own type whose numerals are as long as
its own (`signed_bytes_identify`), and no more: a report can have the bytes of a coin.
-/

namespace S2Pac

variable {D : Type}

/-- The messages with a `Signature` field. -/
inductive Signed (D : Type) where
  | propose (p : ProposeMsg D)
  | vote (v : VoteMsg D)
  | finVote (fv : FinVoteMsg D)
  | speedVote (sv : SpeedVoteMsg D)
  | randomCoin (r : RandomCoinMsg)
  | report (r : ReportMsg D)
  deriving DecidableEq

/-- The types of these messages. -/
inductive SignedType where
  | propose
  | vote
  | finVote
  | speedVote
  | randomCoin
  | report
  deriving DecidableEq

namespace Signed

def type : Signed D → SignedType
  | .propose _ => .propose
  | .vote _ => .vote
  | .finVote _ => .finVote
  | .speedVote _ => .speedVote
  | .randomCoin _ => .randomCoin
  | .report _ => .report

def author : Signed D → NodeID
  | .propose p => p.author
  | .vote v => v.author
  | .finVote fv => fv.author
  | .speedVote sv => sv.author
  | .randomCoin r => r.author
  | .report r => r.author

def signature : Signed D → Bytes
  | .propose p => p.signature
  | .vote v => v.signature
  | .finVote fv => fv.signature
  | .speedVote sv => sv.signature
  | .randomCoin r => r.signature
  | .report r => r.signature

variable (E : Env D)

def hash : Signed D → D
  | .propose p => p.hash E
  | .vote v => v.hash E
  | .finVote fv => fv.hash E
  | .speedVote sv => sv.hash E
  | .randomCoin r => r.hash E
  | .report r => r.hash E

def verify : Signed D → Option Bool
  | .propose p => p.verify E
  | .vote v => v.verify E
  | .finVote fv => fv.verify E
  | .speedVote sv => sv.verify E
  | .randomCoin r => r.verify E
  | .report r => r.verify E

/-- The byte string that `Hash` feeds to SHA-256. -/
def preimage : Signed D → Bytes
  | .propose p => appendInt p.author ++ appendInt p.view ++ appendInt p.height ++
      E.digestBytes (p.b.hash E)
  | .vote v => appendInt v.view ++ appendInt v.height ++ appendInt v.proposer ++
      E.digestBytes v.blockHash
  | .finVote fv => appendInt fv.author ++ appendInt fv.view
  | .speedVote sv => appendInt sv.view ++ appendInt sv.proposer ++ E.digestBytes sv.blockHash
  | .randomCoin r => appendInt r.view ++ appendInt r.leader ++ appendInt r.author
  | .report r => appendInt r.author ++ appendInt r.view ++ appendInt r.level

theorem hash_eq (m : Signed D) : m.hash E = E.sum256 (m.preimage E) := by
  cases m <;> rfl

/-- A signature is as good for every message of its author with the same bytes. -/
theorem verify_of_preimage {m m' : Signed D} (ha : m.author = m'.author)
    (hs : m.signature = m'.signature) (h : m.preimage E = m'.preimage E) :
    m.verify E = m'.verify E := by
  have hverify (m : Signed D) : m.verify E = E.checkSig m.author (m.hash E) m.signature := by
    cases m <;> rfl
  rw [hverify, hverify, ha, hs, hash_eq, hash_eq, h]

/-- The two messages have the same type and agree on every field that `Hash` feeds in. -/
def Same : Signed D → Signed D → Prop
  | .propose p, .propose p' =>
    p.author = p'.author ∧ p.view = p'.view ∧ p.height = p'.height ∧ p.b.hash E = p'.b.hash E
  | .vote v, .vote v' =>
    v.view = v'.view ∧ v.height = v'.height ∧ v.proposer = v'.proposer ∧ v.blockHash = v'.blockHash
  | .finVote fv, .finVote fv' => fv.author = fv'.author ∧ fv.view = fv'.view
  | .speedVote sv, .speedVote sv' =>
    sv.view = sv'.view ∧ sv.proposer = sv'.proposer ∧ sv.blockHash = sv'.blockHash
  | .randomCoin r, .randomCoin r' =>
    r.view = r'.view ∧ r.leader = r'.leader ∧ r.author = r'.author
  | .report r, .report r' => r.author = r'.author ∧ r.view = r'.view ∧ r.level = r'.level
  | _, _ => False

/-- The numbers that `Hash` feeds in, in their order. -/
def numbers : Signed D → List ℤ
  | .propose p => [p.author, p.view, p.height]
  | .vote v => [v.view, v.height, v.proposer]
  | .finVote fv => [fv.author, fv.view]
  | .speedVote sv => [sv.view, sv.proposer]
  | .randomCoin r => [r.view, r.leader, r.author]
  | .report r => [r.author, r.view, r.level]

/-- The digest that `Hash` feeds in behind the numbers. -/
def digest : Signed D → Option D
  | .propose p => some (p.b.hash E)
  | .vote v => some v.blockHash
  | .speedVote sv => some sv.blockHash
  | _ => none

/-- The lengths of the numerals. -/
def lengths (m : Signed D) : List ℕ := m.numbers.map fun x => (appendInt x).length

theorem preimage_eq (m : Signed D) :
    m.preimage E = m.numbers.flatMap appendInt ++ ((m.digest E).map E.digestBytes).getD [] := by
  cases m <;> simp [preimage, numbers, digest]

variable {E}

theorem same_iff {m m' : Signed D} :
    m.Same E m' ↔ m.type = m'.type ∧ m.numbers = m'.numbers ∧ m.digest E = m'.digest E := by
  cases m <;> cases m' <;> simp [Same, type, numbers, digest, and_assoc]

end Signed

/-- Numerals whose lengths are known come apart again. -/
theorem flatMap_appendInt_inj {xs ys : List ℤ} {s t : Bytes}
    (hlen : xs.map (fun x => (appendInt x).length) = ys.map fun y => (appendInt y).length)
    (h : xs.flatMap appendInt ++ s = ys.flatMap appendInt ++ t) : xs = ys ∧ s = t := by
  induction xs generalizing ys with
  | nil =>
    obtain rfl : ys = [] := by simpa using hlen.symm
    exact ⟨rfl, by simpa using h⟩
  | cons x xs ih =>
    cases ys with
    | nil => simp at hlen
    | cons y ys =>
      simp only [List.map_cons, List.cons.injEq] at hlen
      simp only [List.flatMap_cons, List.append_assoc] at h
      obtain ⟨hx, hrest⟩ := List.append_inj h hlen.1
      obtain ⟨hxs, hst⟩ := ih hlen.2 hrest
      exact ⟨by rw [appendInt_injective hx, hxs], hst⟩

theorem Signed.digest_inj {E : Env D} (hinj : Function.Injective E.digestBytes) {m m' : Signed D}
    (ht : m.type = m'.type)
    (h : ((m.digest E).map E.digestBytes).getD [] = ((m'.digest E).map E.digestBytes).getD []) :
    m.digest E = m'.digest E := by
  cases m <;> cases m' <;> simp_all [Signed.type, Signed.digest, hinj.eq_iff]

/-- **What the signed bytes identify.** Two signed messages with the same bytes are of the same type and
agree on every field that is fed in exactly if they are of the same type and their numerals have the
same lengths, one by one. -/
theorem signed_bytes_identify (E : Env D) (hinj : Function.Injective E.digestBytes)
    (m m' : Signed D) (h : m.preimage E = m'.preimage E) :
    m.Same E m' ↔ m.type = m'.type ∧ m.lengths = m'.lengths := by
  rw [Signed.same_iff]
  constructor
  · rintro ⟨ht, hn, -⟩
    exact ⟨ht, by rw [Signed.lengths, Signed.lengths, hn]⟩
  · rintro ⟨ht, hlen⟩
    rw [Signed.preimage_eq, Signed.preimage_eq] at h
    obtain ⟨hn, hd⟩ := flatMap_appendInt_inj hlen h
    exact ⟨ht, hn, Signed.digest_inj hinj ht hd⟩

/-- Two final votes of node 1 for view 2. -/
theorem signed_bytes_identify_finVotes :
    (Signed.finVote ⟨1, 2, none, []⟩).Same
      { Env.plain 4 fun _ => 0 with digestBytes := fun d => List.replicate d 0 }
      (.finVote ⟨1, 2, some ⟨2, HEIGHT_2, 1, 7, []⟩, [5]⟩) :=
  (signed_bytes_identify _ (fun a b h => by simpa using congrArg List.length h) _ _ (by decide)).2
    ⟨rfl, by decide⟩

/-- Node 0's report of view 2 with `LEVEL_2` and node 0's coin of view 0 for leader 2 have the same
bytes, with any keys. -/
theorem Signed.preimage_coin_report (E : Env D) (sig sig' : Bytes) :
    (Signed.randomCoin ⟨2, 0, 0, sig⟩).preimage E =
      (Signed.report ⟨0, 2, LEVEL_2, none, sig'⟩).preimage E := by
  show appendInt 0 ++ appendInt 2 ++ appendInt 0 =
    appendInt 0 ++ appendInt 2 ++ appendInt (LEVEL_2 : ℕ)
  decide

namespace SignedBytes

/-- Four nodes whose signatures are the signer and the digest. -/
def keyed : Env ℕ :=
  { Env.plain 4 fun _ => 0 with
    sign := fun i d => appendInt i ++ appendInt d
    verify := fun i d sig => decide (sig = appendInt i ++ appendInt d) }

def report : ReportMsg ℕ := newReportMsg keyed 0 2 LEVEL_2 none

def coin (sig : Bytes) : RandomCoinMsg := ⟨2, 0, 0, sig⟩

end SignedBytes

open SignedBytes in
/-- The signature of node 0's report makes a coin pass `Verify` that does not pass without it. -/
theorem report_signs_coin :
    (Signed.randomCoin (coin report.signature)).preimage keyed = (Signed.report report).preimage keyed ∧
      ¬ (Signed.randomCoin (coin report.signature)).Same keyed (.report report) ∧
      report.verify keyed = some true ∧ (coin report.signature).verify keyed = some true ∧
      (coin []).verify keyed = some false := by
  have hbytes := Signed.preimage_coin_report keyed report.signature report.signature
  have hreport : (Signed.report report).verify keyed = some true := by decide +kernel
  refine ⟨hbytes, id, hreport, ?_, by decide +kernel⟩
  have hcoin : (Signed.randomCoin (coin report.signature)).verify keyed =
      (Signed.report report).verify keyed := Signed.verify_of_preimage keyed rfl rfl hbytes
  exact hcoin.trans hreport

end S2Pac
