import S2Pac.Lib.Service
import S2Pac.Message

/-!
# The services of a node

`Store` of `store/store.go` and `SigService` of `crypto/crypto.go`. Both are goroutines that take requests
off a channel; a call makes a request, puts it on the channel and waits for it to come back on a channel of
its own. The store works on its requests one after the other; the signature service starts a goroutine for
a signature share, and signs itself otherwise.

The protocols are modelled with a store that is read and written in one step, and with signatures that are
simply there. `store_linearizable` and `signatures_served` say what this rests on.
-/

set_option linter.unusedSectionVars false

namespace S2Pac

open Lib

/-! ## The store -/

/-- `DB`: what reading and writing do to the data base, and what they give back. -/
structure DB (σ ε : Type) where
  get : σ → Bytes → σ × Bytes × Option ε
  put : σ → Bytes → Bytes → σ × Option ε

/-- `typ`, `key` and `val` of a `storeReq`. -/
inductive StoreCall where
  | read (key : Bytes)
  | write (key val : Bytes)

variable {σ ε κ : Type}

/-- What the goroutine of `NewStore` makes of a request: `val` and `err` when it is done. -/
def DB.serve (db : DB σ ε) (s : σ) : StoreCall → σ × Bytes × Option ε
  | .read key => db.get s key
  | .write key val => ((db.put s key val).1, val, (db.put s key val).2)

/-- `NewStore`. -/
def DB.store (db : DB σ ε) : Server StoreCall σ (Bytes × Option ε) where
  op := db.serve
  apart _ := false
  cap := 1000
  room := by decide

/-- The error of a `Get` that finds nothing. It is the data base's own; `ErrNotFoundKey` is not given back by
any function. -/
inductive StoreErr where
  | notFound
  deriving DecidableEq

/-- What `Get` gives back for what is under the key. -/
def found : Option Bytes → Bytes × Option StoreErr
  | some val => (val, none)
  | none => ([], some .notFound)

/-- A data base that keeps what is put into it. -/
def DB.map : DB (Bytes → Option Bytes) StoreErr where
  get s key := (s, found (s key))
  put s key val := (Function.update s key (some val), none)

/-- What a request writes under a key. -/
def StoreCall.writeTo (key : Bytes) : StoreCall → Option Bytes
  | .write key' val => if key' = key then some val else none
  | .read _ => none

/-- What the requests write under a key, oldest first. -/
def writesTo {β : Type} (key : Bytes) (l : List (κ × StoreCall × β)) : List Bytes :=
  l.filterMap fun x => x.2.1.writeTo key

theorem writesTo_append {β : Type} (key : Bytes) (l l' : List (κ × StoreCall × β)) :
    writesTo key (l ++ l') = writesTo key l ++ writesTo key l' := List.filterMap_append

theorem map_of_legal {l : List (κ × StoreCall × Bytes × Option StoreErr)} {s : Bytes → Option Bytes}
    (h : Legal DB.map.serve (fun _ => none) l s) (key : Bytes) : s key = (writesTo key l).getLast? := by
  induction h with
  | nil => rfl
  | @snoc l s k r _ ih =>
    rw [writesTo_append]
    cases r with
    | read key' =>
      rw [show writesTo key [(k, StoreCall.read key', (DB.map.serve s (.read key')).2)] = [] from rfl,
        List.append_nil]
      exact ih
    | write key' val =>
      by_cases hk : key' = key
      · subst hk
        simp [writesTo, StoreCall.writeTo, DB.serve, DB.map]
      · have hnone : writesTo key [(k, StoreCall.write key' val, (DB.map.serve s (.write key' val)).2)] =
            [] := by
          simp [writesTo, StoreCall.writeTo, hk]
        rw [hnone, List.append_nil, ← ih]
        exact Function.update_of_ne (Ne.symm hk) ..

/-- **The store is linearizable**, over every data base: the calls of `Read` and `Write`, by any number of
goroutines at a time, give back what they would one at a time, in an order in which a call that has
returned comes before those made later. No call returns twice, and every call returns when no new ones come
in. Over a data base that keeps what is put into it, a read gives what was written last. -/
theorem store_linearizable :
    (∀ (db : DB σ ε) (s : σ) (S : Service κ StoreCall σ (Bytes × Option ε)),
      Service.Reach db.store s S →
      Linearizes db.serve s S.history S.order ∧ ((Episode.returns S.history).map Prod.fst).Nodup ∧
      Acc (fun S' S => Service.Step db.store S S') S ∧
      ∀ S', Relation.ReflTransGen (Service.Step db.store) S S' →
        (∀ S'', ¬ Service.Step db.store S' S'') →
        ∀ k r, .call k r ∈ S'.history → ∃ b, .ret k b ∈ S'.history) ∧
    ∀ S : Service κ StoreCall _ _, Service.Reach DB.map.store (fun _ => none) S →
      ∀ l₁ l₂ k key b, S.order = l₁ ++ (k, .read key, b) :: l₂ → b = found (writesTo key l₁).getLast? := by
  refine ⟨fun db s S hS =>
    ⟨hS.linearizes, hS.inv.returns_nodup, (Service.step_wellFounded _).apply S, ?_⟩, ?_⟩
  · intro S' hsteps hstuck k r hcall
    exact (hS.steps hsteps).inv.answered_of_stuck hstuck hcall
  · intro S hS l₁ l₂ k key b horder
    obtain ⟨s₁, hlegal, rfl⟩ := hS.inv.legal.answer horder
    rw [← map_of_legal hlegal]
    rfl

/-- A block is written and read. -/
theorem store_linearizable_read : ∃ S : Service ℕ StoreCall (Bytes → Option Bytes) (Bytes × Option StoreErr),
    Service.Reach DB.map.store (fun _ => none) S ∧
    S.history = [.call 0 (.write [1] [2]), .ret 0 ([2], none), .call 1 (.read [1]), .ret 1 ([2], none)] ∧
    Linearizes DB.map.serve (fun _ => none) S.history S.order := by
  have h : Service.Reach DB.map.store (fun _ => none)
    (Service.start (fun _ => none) : Service ℕ StoreCall _ (Bytes × Option StoreErr)) := .refl
  have h := h.tail (.call (k := 0) (.write [1] [2]) (by simp [Service.start]))
  have h := h.tail (.step (.put (show _ = (0, StoreCall.write [1] [2]) ::ₘ 0 from rfl) (by decide)))
  have h := h.tail (.step (.take rfl rfl))
  have h := h.tail (.step (.serve rfl rfl))
  have h := h.tail (.step (.answer rfl fun _ => Multiset.notMem_zero _))
  have h := h.tail (.step (.ret (show _ = (0, [2], none) ::ₘ 0 from rfl)))
  have h := h.tail (.call (k := 1) (.read [1]) (by simp [Service.start]))
  have h := h.tail (.step (.put (show _ = (1, StoreCall.read [1]) ::ₘ 0 from rfl) (by decide)))
  have h := h.tail (.step (.take rfl rfl))
  have h := h.tail (.step (.serve rfl rfl))
  have h := h.tail (.step (.answer rfl fun _ => Multiset.notMem_zero _))
  have h := h.tail (.step (.ret (show _ = (1, [2], none) ::ₘ 0 from rfl)))
  exact ⟨_, h, rfl, (store_linearizable.1 _ _ _ h).1⟩

/-! ## Signatures -/

variable {D : Type}

/-- `typ` and `digest` of a `sigReq`. -/
inductive SigCall (D : Type) where
  | sig (digest : D)
  | share (digest : D)

/-- `ret` of a `sigReq`: a `Signature` or a `SignatureShare`. -/
inductive SigReply where
  | signature (sig : Bytes)
  | share (partialSig : Bytes)
  deriving DecidableEq

/-- What node `me` signs. -/
def signed (E : Env D) (me : NodeID) : SigCall D → SigReply
  | .sig digest => .signature (E.sign me digest)
  | .share digest => .share (E.tsSign me digest)

/-- `NewSigService` of node `me`. -/
def sigService (E : Env D) (me : NodeID) : Server (SigCall D) Unit SigReply where
  op _ r := ((), signed E me r)
  apart r :=
    match r with
    | .sig _ => false
    | .share _ => true
  cap := 100
  room := by decide

/-- **Every request is signed**: whatever goroutines ask for at a time, `RequestSignature(digest)` and
`RequestTsSugnature(digest)` give back the signature and the share of their own digest, once; and every
request is answered, when no new ones come in. -/
theorem signatures_served (E : Env D) (me : NodeID) (S : Service κ (SigCall D) Unit SigReply)
    (hS : Service.Reach (sigService E me) () S) :
    (∀ k b, .ret k b ∈ S.history → ∃ r, .call k r ∈ S.history ∧ b = signed E me r) ∧
    ((Episode.returns S.history).map Prod.fst).Nodup ∧
    Acc (fun S' S => Service.Step (sigService E me) S S') S ∧
    ∀ S', Relation.ReflTransGen (Service.Step (sigService E me)) S S' →
      (∀ S'', ¬ Service.Step (sigService E me) S' S'') →
      ∀ k r, .call k r ∈ S'.history → .ret k (signed E me r) ∈ S'.history := by
  have hlin {S : Service κ (SigCall D) Unit SigReply} (hS : Service.Reach (sigService E me) () S)
      {k : κ} {b : SigReply} (hret : .ret k b ∈ S.history) :
      ∃ r, .call k r ∈ S.history ∧ b = signed E me r := by
    obtain ⟨r, hr⟩ := hS.linearizes.returned k b hret
    obtain ⟨l₁, l₂, horder⟩ := List.append_of_mem hr
    obtain ⟨_, _, rfl⟩ := hS.inv.legal.answer horder
    exact ⟨r, hS.linearizes.called _ hr, rfl⟩
  refine ⟨fun k b => hlin hS, ?_, (Service.step_wellFounded _).apply S, ?_⟩
  · exact hS.inv.returns_nodup
  · intro S' hsteps hstuck k r hcall
    have hreach := hS.steps hsteps
    obtain ⟨b, hret⟩ := hreach.inv.answered_of_stuck hstuck hcall
    obtain ⟨r', hcall', rfl⟩ := hlin hreach hret
    rwa [hreach.inv.call_unique hcall hcall']

/-- A signature is asked for while a share is being made, and comes back first. -/
theorem signatures_served_overtaking : ∃ S : Service ℕ (SigCall ℕ) Unit SigReply,
    Service.Reach (sigService (Env.plain 4 fun _ => 0) 0) () S ∧
    S.history = [.call 0 (.share 7), .call 1 (.sig 7), .ret 1 (.signature []), .ret 0 (.share [])] ∧
    ((Episode.returns S.history).map Prod.fst).Nodup := by
  have h : Service.Reach (sigService (Env.plain 4 fun _ => 0) 0) ()
    (Service.start () : Service ℕ (SigCall ℕ) Unit SigReply) := .refl
  have h := h.tail (.call (k := 0) (.share 7) (by simp [Service.start]))
  have h := h.tail (.step (.put (show _ = (0, SigCall.share 7) ::ₘ 0 from rfl) (by decide)))
  have h := h.tail (.step (.take rfl rfl))
  have h := h.tail (.step (.spawn rfl rfl))
  have h := h.tail (.call (k := 1) (.sig 7) (by simp [Service.start]))
  have h := h.tail (.step (.put (show _ = (1, SigCall.sig 7) ::ₘ 0 from rfl) (by decide)))
  have h := h.tail (.step (.take rfl rfl))
  have h := h.tail (.step (.serve rfl rfl))
  have h := h.tail (.step (.answer rfl fun _ => Multiset.notMem_zero _))
  have h := h.tail (.step (.ret (show _ = (1, SigReply.signature []) ::ₘ 0 from rfl)))
  have h := h.tail (.step (.toil (show _ = (0, SigCall.share 7) ::ₘ 0 from rfl)))
  have h := h.tail (.step (.finish (show _ = (0, SigReply.share []) ::ₘ 0 from rfl)
    fun _ => Multiset.notMem_zero _))
  have h := h.tail (.step (.ret (show _ = (0, SigReply.share []) ::ₘ 0 from rfl)))
  exact ⟨_, h, rfl, (signatures_served _ _ _ h).2.1⟩

end S2Pac
