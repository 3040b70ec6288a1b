import S2Pac.Lib.Network

/-!
# Hosts that do not follow the code

`M.withFaulty bad may`: the hosts in `bad` do nothing of what `M` says; they take every message and send
what they like, to whom they like, as long as `may` allows it. The other hosts follow `M`, so that what
is known of the local runs of `M` holds of them (`Local.honest`).
-/

namespace S2Pac.Lib

/-- What can happen at a host: a step of the code, or that a faulty host sends a message. -/
inductive FaultyAct (ι μ α : Type) where
  | act (a : α)
  | send (i : ι) (m : μ)
  deriving DecidableEq

variable {ι σ μ α ω : Type} [DecidableEq ι]

namespace Machine

variable (M : Machine ι σ μ α ω) (bad : List ι) (may : ι → μ → Bool)

/-- The machine `M` where the hosts `bad` are faulty. -/
def withFaulty : Machine ι σ μ (FaultyAct ι μ α) ω where
  hosts := M.hosts
  nodup := M.nodup
  init := M.init
  recv i s m := if i ∈ bad then some (s, []) else M.recv i s m
  act i s a :=
    match a with
    | .act a => if i ∈ bad then none else M.act i s a
    | .send j m => if i ∈ bad ∧ may i m = true then some (s, [.to j m]) else none

variable {M bad may} {G : Guard ι σ μ (FaultyAct ι μ α) ω}

/-- The guard of a machine with faulty hosts, on the inputs of the code. -/
def honestGuard (G : Guard ι σ μ (FaultyAct ι μ α) ω) : Guard ι σ μ α ω :=
  fun i h x =>
    match x with
    | .recv m => G i h (.recv m)
    | .act a => G i h (.act (.act a))

/-- **A host that is not faulty follows the code.** -/
theorem Local.honest {i : ι} {h : Host ι σ μ ω} (hi : i ∉ bad)
    (hl : (M.withFaulty bad may).Local G i h) : M.Local (honestGuard G) i h := by
  induction hl with
  | start => exact Local.start
  | @recv h m s o _ hg hs ih =>
    refine Local.recv ih hg ?_
    simpa [withFaulty, hi] using hs
  | @act h a s o _ hg hs ih =>
    cases a with
    | act a =>
      refine Local.act ih hg ?_
      simpa [withFaulty, hi] using hs
    | send j m => simp [withFaulty, hi] at hs

theorem Local.faulty {i : ι} {h : Host ι σ μ ω} (hi : i ∈ bad)
    (hl : (M.withFaulty bad may).Local G i h) :
    ∀ o ∈ h.outs, ∃ j m, o = .to j m ∧ may i m = true := by
  induction hl with
  | start => exact fun o ho => absurd ho List.not_mem_nil
  | @recv h m s o _ hg hs ih =>
    have hs : some (h.st, []) = some (s, o) := by simpa [withFaulty, hi] using hs
    cases hs
    simpa using ih
  | @act h a s o _ hg hs ih =>
    cases a with
    | act a => simp [withFaulty, hi] at hs
    | send j m =>
      have hs : may i m = true ∧ some (h.st, [Out.to j m]) = some (s, o) := by
        simpa [withFaulty, hi] using hs
      obtain ⟨hmay, hs⟩ := hs
      cases hs
      intro o ho
      rcases List.mem_append.1 ho with hold | hnew
      · exact ih o hold
      · exact ⟨j, m, List.mem_singleton.1 hnew, hmay⟩

end Machine

end S2Pac.Lib
