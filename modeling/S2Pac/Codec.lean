import S2Pac.Crash

/-!
# The codec

`network/codec.go` and `Receiver.serveConn` of `network/network.go`. `Codec.Write` puts a message on the
connection in two values, the number of its type and the message itself; `Codec.Read` takes the number, makes
a value of the type that `DefaultMsgTypes` has under it, and decodes the message into that. A number that is
not in the table makes `reflect.New` panic.

What `gob` does is not modelled: it writes a value so that the decoder at the other end finds the same value,
or gets an error when the bytes end before it does. A connection is the values that were written and have not
been decoded.

`Link.Step.flow`: the reader hands over the messages that were written, in order, up to some point, and
never sees a value it does not expect, wherever the writing and the reading stop.
-/

set_option linter.unusedSectionVars false

namespace S2Pac

variable {D : Type}

/-! ## Types of messages -/

abbrev ProposeType : ℤ := 0
abbrev VoteType : ℤ := 1
abbrev FinVoteType : ℤ := 2
abbrev SpeedVoteType : ℤ := 3
abbrev ElectType : ℤ := 4
abbrev RandomCoinType : ℤ := 5
abbrev ReportType : ℤ := 6
abbrev DocGQCType : ℤ := 7

/-- The numbers that `DefaultMsgTypes` has a type for. -/
def defaultMsgTypes : List ℤ :=
  [ProposeType, VoteType, FinVoteType, SpeedVoteType, ElectType, RandomCoinType, ReportType, DocGQCType]

/-- `MsgType` of the type of the value. -/
def Wire.msgType : Wire D → ℤ
  | .propose _ => ProposeType
  | .vote _ => VoteType
  | .finVote _ => FinVoteType
  | .speedVote _ => SpeedVoteType
  | .elect _ => ElectType
  | .randomCoin _ => RandomCoinType
  | .report _ => ReportType
  | .docGQC _ => DocGQCType

theorem Wire.msgType_mem (w : Wire D) : w.msgType ∈ defaultMsgTypes := by
  cases w <;> simp [Wire.msgType, defaultMsgTypes]

/-! ## Writing -/

/-- A value that `gob` has encoded. -/
inductive Value (D : Type) where
  | int (n : ℤ)
  | message (w : Wire D)

namespace Codec

/-- `Write`. -/
def write (w : Wire D) : List (Value D) := [.int w.msgType, .message w]

/-- The values of a sequence of messages. -/
def writeAll (ws : List (Wire D)) : List (Value D) := ws.flatMap write

@[simp] theorem writeAll_nil : writeAll ([] : List (Wire D)) = [] := rfl

@[simp] theorem writeAll_cons (w : Wire D) (ws : List (Wire D)) :
    writeAll (w :: ws) = .int w.msgType :: .message w :: writeAll ws := rfl

@[simp] theorem writeAll_append (ws ws' : List (Wire D)) :
    writeAll (ws ++ ws') = writeAll ws ++ writeAll ws' := List.flatMap_append

/-- **After the values of some messages comes the number of the next one, and then that message.** -/
theorem next_of_writeAll {ws ws' : List (Wire D)} {v : Value D} {vs : List (Value D)}
    (h : writeAll ws ++ v :: vs = writeAll ws') : ∃ w rest, ws' = ws ++ w :: rest ∧
      v = .int w.msgType ∧ vs = .message w :: writeAll rest := by
  induction ws generalizing ws' with
  | nil =>
    cases ws' with
    | nil => cases h
    | cons w rest =>
      obtain ⟨rfl, rfl⟩ := List.cons.inj h
      exact ⟨w, rest, rfl, rfl, rfl⟩
  | cons w₀ ws ih =>
    cases ws' with
    | nil => cases h
    | cons w₁ ws' =>
      simp only [writeAll_cons, List.cons_append, List.cons.injEq, Value.message.injEq] at h
      obtain ⟨-, rfl, h⟩ := h
      obtain ⟨w, rest, rfl, hv, hvs⟩ := ih h
      exact ⟨w, rest, rfl, hv, hvs⟩

theorem writeAll_injective : Function.Injective (writeAll : List (Wire D) → List (Value D)) := by
  intro ws
  induction ws with
  | nil =>
    intro ws' h
    cases ws' with
    | nil => rfl
    | cons w' ws' => cases h
  | cons w ws ih =>
    intro ws' h
    cases ws' with
    | nil => cases h
    | cons w' ws' =>
      simp only [writeAll_cons, List.cons.injEq, Value.message.injEq] at h
      rw [h.2.1, ih h.2.2]

end Codec

/-! ## Reading -/

/-- Where the goroutine of an accepted connection is. -/
inductive ConnReader (D : Type) where
  /-- In `cc.decoder.Decode(&typeId)`. -/
  | typeId
  /-- In `cc.decoder.Decode(msg)`, for a `msg` of the type with this number. -/
  | message (typeId : ℤ)
  /-- In `recv.msg <- msg`. -/
  | handing (w : Wire D)
  /-- It has returned, after an error or at the end of the stream. -/
  | returned
  /-- `reflect.New(cc.types[typeId])` for a number that is not in the table. -/
  | panicked

namespace ConnReader

/-- What the next value does. A struct cannot be decoded into an `int`, nor an `int` into a struct. `gob`
goes by the names of the fields, so that it may find something of one type in a value of another; here that
is an error as well, and `Link.Flow` says that it does not come up. -/
def decode : ConnReader D → Value D → ConnReader D
  | .typeId, .int n => if n ∈ defaultMsgTypes then .message n else .panicked
  | .typeId, .message _ => .returned
  | .message n, .message w => if w.msgType = n then .handing w else .returned
  | .message _, .int _ => .returned
  | r, _ => r

/-- It waits for a value. -/
def Decoding : ConnReader D → Prop
  | .typeId => True
  | .message _ => True
  | _ => False

/-- The values that it has taken off the stream for the message that it is at. -/
def held : ConnReader D → List (Value D)
  | .message n => [.int n]
  | .handing w => Codec.write w
  | _ => []

end ConnReader

/-- A connection, from what is written to it to the goroutine that reads it. -/
structure Link (D : Type) where
  /-- What has been written and not been decoded. -/
  stream : List (Value D)
  reader : ConnReader D
  /-- What was put on `Receiver.msg`, oldest first. -/
  read : List (Wire D)

/-- What happens on a connection. -/
inductive LinkMove (D : Type) where
  | write (vs : List (Value D))
  | decode
  | broken
  | hand (w : Wire D)

namespace Link

/-- Before anything is written. -/
def new : Link D := ⟨[], .typeId, []⟩

/-- **One step.** -/
inductive Step : LinkMove D → Link D → Link D → Prop
  /-- The other side writes. -/
  | write {l : Link D} (vs : List (Value D)) : Step (.write vs) l { l with stream := l.stream ++ vs }
  /-- A value is decoded. -/
  | decode {l : Link D} {v : Value D} {rest : List (Value D)} : l.reader.Decoding →
      l.stream = v :: rest → Step .decode l { l with stream := rest, reader := l.reader.decode v }
  /-- The connection is broken or closed, and `serveConn` returns. -/
  | broken {l : Link D} : l.reader.Decoding → Step .broken l { l with reader := .returned }
  /-- The message is put on `Receiver.msg`. -/
  | hand {l : Link D} {w : Wire D} : l.reader = .handing w →
      Step (.hand w) l { l with reader := .typeId, read := l.read ++ [w] }

/-- **What a connection does to the messages `sent`**, of whose values `rest` are not written: what is read
are the first of them, and the reader has not lost its place. -/
structure Flow (l : Link D) (sent : List (Wire D)) (rest : List (Value D)) : Prop where
  kept : l.read <+: sent
  sane : l.reader ≠ .panicked
  place : l.reader ≠ .returned →
    Codec.writeAll l.read ++ l.reader.held ++ l.stream ++ rest = Codec.writeAll sent

theorem Flow.new : (new : Link D).Flow [] [] := ⟨List.prefix_refl _, by simp [Link.new], fun _ => rfl⟩

theorem Flow.fetch {l : Link D} {sent : List (Wire D)} (h : l.Flow sent []) (w : Wire D) :
    l.Flow (sent ++ [w]) (Codec.write w) := by
  refine ⟨h.kept.trans (List.prefix_append _ _), h.sane, fun hr => ?_⟩
  have hplace := h.place hr
  rw [List.append_nil] at hplace
  rw [hplace, Codec.writeAll_append]
  rfl

theorem Flow.write {l l' : Link D} {sent : List (Wire D)} {vs rest : List (Value D)}
    (hs : Step (.write vs) l l') (h : l.Flow sent (vs ++ rest)) : l'.Flow sent rest := by
  cases hs
  refine ⟨h.kept, h.sane, fun hr => ?_⟩
  rw [← h.place hr]
  simp only [List.append_assoc]

theorem Flow.decode {l l' : Link D} {sent : List (Wire D)} {rest : List (Value D)}
    (hs : Step .decode l l') (h : l.Flow sent rest) : l'.Flow sent rest ∧ l'.reader ≠ .returned := by
  cases hs with
  | @decode _ v tail hdec hstream =>
    obtain ⟨stream, reader, read⟩ := l
    obtain rfl : stream = v :: tail := hstream
    cases reader with
    | typeId =>
      have hplace := h.place (by simp)
      simp only [ConnReader.held, List.append_nil, List.append_assoc, List.cons_append] at hplace
      obtain ⟨w, more, rfl, rfl, hvs⟩ := Codec.next_of_writeAll hplace
      simp only [ConnReader.decode, if_pos w.msgType_mem]
      refine ⟨⟨List.prefix_append _ _, by simp, fun _ => ?_⟩, by simp⟩
      rw [← hplace]
      simp [ConnReader.held]
    | message n =>
      have hplace := h.place (by simp)
      simp only [ConnReader.held, List.append_assoc, List.cons_append, List.nil_append] at hplace
      obtain ⟨w, more, rfl, hn, hvs⟩ := Codec.next_of_writeAll hplace
      cases hn
      obtain ⟨rfl, -⟩ := List.cons.inj hvs
      simp only [ConnReader.decode, if_true]
      refine ⟨⟨List.prefix_append _ _, by simp, fun _ => ?_⟩, by simp⟩
      rw [← hplace]
      simp [ConnReader.held, Codec.write]
    | _ => exact hdec.elim

theorem Flow.broken {l l' : Link D} {sent : List (Wire D)} {rest : List (Value D)}
    (hs : Step .broken l l') (h : l.Flow sent rest) : l'.Flow sent rest := by
  cases hs
  exact ⟨h.kept, by simp, fun hr => absurd rfl hr⟩

/-- A message is put on `Receiver.msg`: it is the next of those that were sent. -/
theorem Flow.hand {l l' : Link D} {sent : List (Wire D)} {rest : List (Value D)} {w : Wire D}
    (hs : Step (.hand w) l l') (h : l.Flow sent rest) : l'.Flow sent rest := by
  cases hs with
  | hand hw =>
    obtain ⟨stream, reader, read⟩ := l
    obtain rfl : reader = .handing w := hw
    have hplace := h.place (by simp)
    have hnext : Codec.writeAll (read ++ [w]) ++ (stream ++ rest) = Codec.writeAll sent := by
      rw [← hplace]
      simp [ConnReader.held, Codec.write]
    refine ⟨?_, by simp, fun _ => by simpa [ConnReader.held] using hnext⟩
    simp only [ConnReader.held, Codec.write, List.append_assoc, List.cons_append] at hplace
    obtain ⟨w', more, rfl, -, hvs⟩ := Codec.next_of_writeAll hplace
    obtain ⟨hw, -⟩ := List.cons.inj hvs
    cases hw
    exact ⟨more, by simp⟩

end Link

end S2Pac
