import S2Pac.Identity
import S2Pac.Storing

/-!
# What is committed is what was elected

An instance is found by the view and the author of the envelope of a proposal, and its hash by the height
of the envelope; the block that is hashed, stored and committed has its own view, author and height.
`ProposeMsg.Verify` does not compare the two. Where they agree, and equal digests mean equal slots,
`processCoin` hands exactly the block of the slot it is about to `Commit` (`commits_elected`).
-/

set_option linter.unusedSectionVars false

namespace S2Pac

open Lib

variable {D : Type} [DecidableEq D] {J : Type}

/-- The block is one of `author` at `(view, height)`. -/
structure Block.At (b : Block D) (author : NodeID) (view : ℤ) (height : ℕ) : Prop where
  author_eq : b.author = author
  view_eq : b.view = view
  height_eq : b.height = height

instance (b : Block D) (author : NodeID) (view : ℤ) (height : ℕ) :
    Decidable (b.At author view height) :=
  decidable_of_iff (b.author = author ∧ b.view = view ∧ b.height = height)
    ⟨fun ⟨ha, hv, hh⟩ => ⟨ha, hv, hh⟩, fun h => ⟨h.author_eq, h.view_eq, h.height_eq⟩⟩

/-- The accepted proposals say the same as their blocks, and a digest stands for one slot. -/
structure Labelled (E : Env D) (docG : Bool) (l : List (Msg D)) : Prop where
  envelope : ∀ p, Msg.propose p ∈ l.filter (Msg.passes E docG) → p.b.At p.author p.view p.height
  slot : ∀ p p', Msg.propose p ∈ l.filter (Msg.passes E docG) →
    Msg.propose p' ∈ l.filter (Msg.passes E docG) → p.b.hash E = p'.b.hash E →
    p.b.At p'.b.author p'.b.view p'.b.height

theorem Labelled.mono {E : Env D} {docG : Bool} {l l' : List (Msg D)} (h : Labelled E docG l')
    (hll : l <+: l') : Labelled E docG l := by
  have hsub := (hll.filter (Msg.passes E docG)).subset
  exact ⟨fun p hp => h.envelope p (hsub hp), fun p p' hp hp' => h.slot p p' (hsub hp) (hsub hp')⟩

/-- What `processCoin(leader, view)` has found out when it fetches the block of a height: it is the
branch of `SpeedCert()`, or the other one. -/
def Branch (s : SPB D) (height : ℕ) : Prop :=
  (height = HEIGHT_2 ∧ s.speedCert = true) ∨ height = HEIGHT_1

theorem Branch.grows {s s' : SPB D} (hs : s.Grows s') {height : ℕ} (h : Branch s height) :
    Branch s' height :=
  h.imp_left fun ⟨hh, hc⟩ => ⟨hh, hs.speedCert hc⟩

theorem Branch.le {s : SPB D} {height : ℕ} (h : Branch s height) : height ≤ HEIGHT_2 := by
  rcases h with ⟨rfl, -⟩ | rfl <;> decide

/-- The block that `processCoin(leader, view)` hands over is the one of its slot. -/
structure Elects (c : Node D J) (leader : NodeID) (view : ℤ) (height : ℕ) (b : Block D) :
    Prop where
  slot : b.At leader view height
  branch : Branch (c.spbInstances (view, leader)) height

/-- What the node has handed to `Commit`, and where the commitor is. -/
structure CommitsElected (h : NodeHost D J) : Prop where
  handed : ∀ leader view height b, Out.event (.handed leader view height b) ∈ h.outs →
    Elects h.st leader view height b
  last : (h.st.commitor.lastView = 0 ∧ h.st.commitor.lastHeight = HEIGHT_1) ∨
    ∃ leader view height b, Out.event (.handed leader view height b) ∈ h.outs ∧
      h.st.commitor.lastView = view ∧ h.st.commitor.lastHeight = height

/-- What holds where the main loop is: `Q` of the slot whose block it is about to fetch, `P` of the block
that it is about to hand over. -/
def OnCourse (Q : NodeID → ℤ → ℕ → Prop) (P : NodeID → ℤ → ℕ → Block D → Prop) : Pc D → Prop
  | .fetch leader view height => Q leader view height
  | .commit leader view height b => P leader view height b
  | _ => True

theorem OnCourse.imp {Q Q' : NodeID → ℤ → ℕ → Prop} {P P' : NodeID → ℤ → ℕ → Block D → Prop}
    {pc : Pc D} (h : OnCourse Q P pc) (hQ : ∀ leader view height, Q leader view height →
      Q' leader view height) (hP : ∀ leader view height b, P leader view height b →
      P' leader view height b) : OnCourse Q' P' pc := by
  cases pc with
  | fetch leader view height => exact hQ _ _ _ h
  | commit leader view height b => exact hP _ _ _ _ h
  | _ => trivial

theorem OnCourse.moved {Q : NodeID → ℤ → ℕ → Prop} {P : NodeID → ℤ → ℕ → Block D → Prop}
    {pc pc' : Pc D} (h : OnCourse Q P pc) (hpc : pc' = pc ∨ pc'.Outside) : OnCourse Q P pc' := by
  rcases hpc with rfl | hpc
  · exact h
  · cases pc' with
    | fetch leader view height => exact hpc.elim
    | commit leader view height b => exact hpc.elim
    | _ => trivial

/-- `Commit` leaves `lastView` and `lastHeight` as they are or takes those of the block. -/
theorem Commitor.commit_last {c c' : Commitor D} {b : Block D} (h : c.commit b = some c') :
    (c'.lastView = c.lastView ∧ c'.lastHeight = c.lastHeight) ∨
      (c'.lastView = b.view ∧ c'.lastHeight = b.height) := by
  unfold Commitor.commit at h
  split at h
  · cases h; exact Or.inl ⟨rfl, rfl⟩
  · split at h
    · cases h; exact Or.inr ⟨rfl, rfl⟩
    · cases h

namespace Conducts

variable {E : Env D} {docG : Bool} {spawn : Msg D → List (Key × J)}
  {step : NodeID → Key → SPB D → J → SPB D → List J → List (NodeOut D) → Prop}
  {second : Node D J → NodeID → ℤ → Bool} {M : Machine NodeID (Node D J) (Msg D) Act (Event D)}
  {G : Machine.Guard NodeID (Node D J) (Msg D) Act (Event D)} {self : NodeID}
  {h : NodeHost D J} (hM : Conducts E docG spawn step second M)
include hM

theorem step_grows {h' : NodeHost D J} (hs : M.LocalStep G self h h') (k : Key) :
    (h.st.spbInstances k).Grows (h'.st.spbInstances k) := by
  rcases hM.step_spb hs k with he | ⟨i, j, js, os, -, -, hstep⟩
  · rw [he]
    exact SPB.Grows.refl _
  · exact hM.grows _ _ _ _ _ _ _ hstep

/-- **Induction over what a node hands to `Commit`.** `Q` is what the tests of `processCoin` establish
and `P` what holds of the block that is then found; later steps keep both. -/
theorem handed_induction {R : List (Msg D) → Prop} (hR : ∀ l l', l <+: l' → R l' → R l)
    {Q : Node D J → NodeID → ℤ → ℕ → Prop} {P : Node D J → NodeID → ℤ → ℕ → Block D → Prop}
    (hspeed : ∀ c leader view, (c.spbInstances (view, leader)).speedCert = true →
      Q c leader view HEIGHT_2)
    (hsecond : ∀ c leader view, second c leader view = true → Q c leader view HEIGHT_1)
    (hfound : ∀ h, M.Local G self h → R h.received → ∀ leader view height b,
      Q h.st leader view height →
      getBlock h.st.store ((h.st.spbInstances (view, leader)).blockHash height) = some b →
      P h.st leader view height b)
    (hQ : ∀ h h', M.Local G self h → M.LocalStep G self h h' → R h'.received →
      ∀ leader view height, Q h.st leader view height → Q h'.st leader view height)
    (hP : ∀ h h', M.Local G self h → M.LocalStep G self h h' → R h'.received →
      ∀ leader view height b, P h.st leader view height b → P h'.st leader view height b)
    (hl : M.Local G self h) (hr : R h.received) :
    (∀ leader view height b, Out.event (.handed leader view height b) ∈ h.outs →
      P h.st leader view height b) ∧ OnCourse (Q h.st) (P h.st) h.st.pc := by
  induction hl with
  | start =>
    rw [Machine.start, hM.init]
    exact ⟨fun _ _ _ _ hb => absurd hb List.not_mem_nil, trivial⟩
  | @recv h m s o hl hg hs ih =>
    obtain ⟨hhanded, hpc⟩ := ih (hR _ _ (List.prefix_append _ _) hr)
    have hst : M.LocalStep G self h ⟨s, h.received ++ [m], h.outs ++ o⟩ :=
      ⟨.recv m, _, hg, by rw [Machine.input, hs]; rfl, rfl⟩
    have hrs := hM.recv _ _ _ _ hs
    refine ⟨fun leader view height b hb => hP _ _ hl hst hr _ _ _ _ (hhanded _ _ _ _ ?_),
      (hpc.imp (hQ _ _ hl hst hr) (hP _ _ hl hst hr)).moved hrs.pc⟩
    exact (List.mem_append.1 hb).resolve_right (hrs.events _)
  | @act h a s o hl hg hs ih =>
    obtain ⟨hhanded, hpc⟩ := ih hr
    have hst : M.LocalStep G self h ⟨s, h.received, h.outs ++ o⟩ :=
      ⟨.act a, _, hg, by rw [Machine.input, hs]; rfl, rfl⟩
    have hQ := hQ _ _ hl hst hr
    have hP := hP _ _ hl hst hr
    -- what a step hands over that hands over nothing
    have hold (hos : ∀ leader view height b, Out.event (.handed leader view height b) ∉ o) :
        ∀ leader view height b, Out.event (.handed leader view height b) ∈ h.outs ++ o →
          P s leader view height b :=
      fun _ _ _ _ hb => hP _ _ _ _ (hhanded _ _ _ _ ((List.mem_append.1 hb).resolve_right (hos _ _ _ _)))
    cases hM.act _ _ _ _ hs with
    | task _ _ hstep _ _ hmain =>
      exact ⟨hold fun _ _ _ _ => hM.quiet _ _ _ _ _ _ _ hstep _,
        (hpc.imp hQ hP).moved (Or.inl hmain.pc)⟩
    | coin _ hcoin =>
      cases hcoin with
      | speed hp hsc => exact ⟨hold (by simp), hQ _ _ _ (hspeed _ _ _ hsc)⟩
      | second hp hsec => exact ⟨hold (by simp), hQ _ _ _ (hsecond _ _ _ hsec)⟩
      | found hp hb =>
        rw [hp] at hpc
        exact ⟨hold (by simp), hP _ _ _ _ (hfound _ hl hr _ _ _ _ hpc hb)⟩
      | handed hp hcm =>
        rw [hp] at hpc
        refine ⟨fun _ _ _ _ hb => ?_, trivial⟩
        rcases List.mem_append.1 hb with hb | hb
        · exact hP _ _ _ _ (hhanded _ _ _ _ hb)
        · cases List.mem_singleton.1 hb
          exact hP _ _ _ _ hpc
      | _ => exact ⟨hold (by simp), trivial⟩
    | @commitor cm _ hcm _ _ hos =>
      obtain rfl : s = { h.st with commitor := cm } := hcm
      refine ⟨hold fun _ _ _ _ ho => ?_, hpc.imp hQ hP⟩
      obtain ⟨b, hb⟩ := hos _ ho
      cases hb
    | rest _ _ _ _ _ hpc' hos =>
      exact ⟨hold fun _ _ _ _ => hos _, (hpc.imp hQ hP).moved hpc'⟩

/-- The commitor is where it was at the start, or at the last block that it was handed and let
through. -/
theorem last_handed (hl : M.Local G self h) :
    (h.st.commitor.lastView = 0 ∧ h.st.commitor.lastHeight = HEIGHT_1) ∨
      ∃ leader view height b, Out.event (.handed leader view height b) ∈ h.outs ∧
        h.st.commitor.lastView = b.view ∧ h.st.commitor.lastHeight = b.height := by
  induction hl with
  | start =>
    rw [Machine.start, hM.init]
    exact Or.inl ⟨rfl, rfl⟩
  | @recv h m s o _ _ hs ih =>
    dsimp only
    rw [(hM.recv _ _ _ _ hs).commitor]
    refine ih.imp_right ?_
    rintro ⟨l, v, ht, b, hb, hlast⟩
    exact ⟨l, v, ht, b, List.mem_append_left _ hb, hlast⟩
  | @act h a s o _ _ hs ih =>
    have still (hv : s.commitor.lastView = h.st.commitor.lastView)
        (hh : s.commitor.lastHeight = h.st.commitor.lastHeight) :
        (s.commitor.lastView = 0 ∧ s.commitor.lastHeight = HEIGHT_1) ∨
          ∃ leader view height b, Out.event (.handed leader view height b) ∈ h.outs ++ o ∧
            s.commitor.lastView = b.view ∧ s.commitor.lastHeight = b.height := by
      rw [hv, hh]
      refine ih.imp_right ?_
      rintro ⟨l, v, ht, b, hb, hlast⟩
      exact ⟨l, v, ht, b, List.mem_append_left _ hb, hlast⟩
    cases hM.act _ _ _ _ hs with
    | task _ _ _ _ _ hmain => exact still (by rw [hmain.commitor]) (by rw [hmain.commitor])
    | coin _ hcoin =>
      cases hcoin with
      | handed hp hcm =>
        rcases Commitor.commit_last hcm with ⟨hv, hh⟩ | hlast
        · exact still hv hh
        · exact Or.inr ⟨_, _, _, _, List.mem_append_right _ (List.mem_singleton_self _), hlast⟩
      | _ => exact still rfl rfl
    | @commitor cm _ hcm hv hh _ =>
      obtain rfl : s = { h.st with commitor := cm } := hcm
      exact still hv hh
    | rest _ _ _ _ hcm => exact still (by rw [hcm]) (by rw [hcm])

theorem block_at (hl : M.Local G self h) (hzero : ∀ b : Block D, b.hash E ≠ E.zero)
    (hlab : Labelled E docG h.received) {leader : NodeID} {view : ℤ} {height : ℕ}
    (hh : height ≤ HEIGHT_2) {b : Block D}
    (hb : getBlock h.st.store ((h.st.spbInstances (view, leader)).blockHash height) = some b) :
    b.At leader view height := by
  obtain ⟨hd, p, hp, rfl⟩ := hM.stored_source hl hb
  rcases hM.recorded _ _ (hM.run hl) (view, leader) height hh with h0 | ⟨p', hp', hk, hph, he⟩
  · exact absurd (hd.trans h0) (hzero _)
  · obtain ⟨rfl, rfl⟩ := Prod.mk.inj hk
    have hslot := hlab.slot p p' hp hp' (hd.trans he)
    have henv := hlab.envelope p' hp'
    exact ⟨hslot.author_eq.trans henv.author_eq, hslot.view_eq.trans henv.view_eq,
      (hslot.height_eq.trans henv.height_eq).trans hph⟩

/-- **What a node hands to `Commit` is the block of the slot.** -/
theorem commitsElected (hl : M.Local G self h) (hzero : ∀ b : Block D, b.hash E ≠ E.zero)
    (hlab : Labelled E docG h.received) : CommitsElected h := by
  have hhanded := (hM.handed_induction (R := Labelled E docG) (fun _ _ hll hlab => hlab.mono hll)
    (Q := fun c leader view height => Branch (c.spbInstances (view, leader)) height)
    (P := Elects) (fun _ _ _ hs => Or.inl ⟨rfl, hs⟩) (fun _ _ _ _ => Or.inr rfl)
    (fun h hl hlab _ _ _ _ hbr hb => ⟨hM.block_at hl hzero hlab hbr.le hb, hbr⟩)
    (fun h h' _ hs _ _ _ _ hbr => hbr.grows (hM.step_grows hs _))
    (fun h h' _ hs _ _ _ _ _ he => ⟨he.slot, he.branch.grows (hM.step_grows hs _)⟩) hl hlab).1
  refine ⟨hhanded, (hM.last_handed hl).imp_right ?_⟩
  rintro ⟨leader, view, height, b, hb, hv, hh⟩
  have hslot := (hhanded _ _ _ _ hb).slot
  exact ⟨leader, view, height, b, hb, hv.trans hslot.view_eq, hh.trans hslot.height_eq⟩

end Conducts

/-- **What is committed is what was elected**, in the three protocols, in the runs in which the accepted
proposals say the same as their blocks and a digest stands for one slot. -/
theorem commits_elected (E : Env D) (hzero : ∀ b : Block D, b.hash E ≠ E.zero) :
    (∀ self h, (Core.machine E).Local Machine.anyInput self h → Labelled E true h.received →
      CommitsElected h) ∧
    (∀ self h, (BigCore.machine E).Local Machine.anyInput self h → Labelled E false h.received →
      CommitsElected h) ∧
    ∀ self h, (DAGBigCore.machine E).Local Machine.anyInput self h → Labelled E true h.received →
      CommitsElected h :=
  ⟨fun _ _ hl hlab => (Core.conducts E).commitsElected hl hzero hlab,
    fun _ _ hl hlab => (BigCore.conducts E).commitsElected hl hzero hlab,
    fun _ _ hl hlab => (DAGBigCore.conducts E).commitsElected hl hzero hlab⟩

/-- The proposals among messages. -/
def proposed (l : List (Msg D)) : List (ProposeMsg D) :=
  l.filterMap fun m =>
    match m with
    | .propose p => some p
    | _ => none

theorem mem_proposed {l : List (Msg D)} {p : ProposeMsg D} (h : Msg.propose p ∈ l) :
    p ∈ proposed l := List.mem_filterMap.2 ⟨_, h, rfl⟩

/-- The block of an output that hands one to `Commit`, with its slot. -/
def handedBlock : NodeOut D → Option ((NodeID × ℤ × ℕ) × Block D)
  | .event (.handed leader view height b) => some ((leader, view, height), b)
  | _ => none

theorem mem_of_handedBlock {outs : List (NodeOut D)} {leader : NodeID} {view : ℤ} {height : ℕ}
    {b : Block D} (h : ((leader, view, height), b) ∈ outs.filterMap handedBlock) :
    Out.event (.handed leader view height b) ∈ outs := by
  obtain ⟨o, ho, hb⟩ := List.mem_filterMap.1 h
  unfold handedBlock at hb
  split at hb
  · cases hb
    exact ho
  · cases hb

namespace Mislabelled

/-- A height-1 block of node 1 that says `view`, -/
def first (view : ℤ) : Block ℕ := ⟨1, view, HEIGHT_1, ⟨-1, []⟩, none, []⟩

/-- and the height-2 block of view 0 above it. -/
def second (view : ℤ) : Block ℕ :=
  ⟨1, 0, HEIGHT_2, ⟨-1, []⟩, some ⟨0, HEIGHT_1, 1, (first view).hash (Env.plain 4 fun _ => 1), []⟩, []⟩

/-- The envelope says view 0. -/
def envelope (height : ℕ) (b : Block ℕ) : Msg ℕ := .propose ⟨1, b, 0, height, none, []⟩

/-- Node 0 is handed the two proposals, the final vote, and the coin that names node 1. -/
def inputs (view : ℤ) : List (Input (Msg ℕ) Act) :=
  [.act .boot, .recv (envelope HEIGHT_1 (first view)), .act (.task 0), .act (.task 0),
    .recv (envelope HEIGHT_2 (second view)), .act (.task 0), .act (.task 0),
    .recv (.finVote ⟨1, 0, some ⟨0, HEIGHT_2, 1, (second view).hash (Env.plain 4 fun _ => 1), []⟩,
      []⟩), .act (.task 0), .recv (.randomCoin ⟨1, 0, 2, []⟩)] ++ List.replicate 4 (.act .main)

def run (view : ℤ) : NodeHost ℕ (SpbJob ℕ) :=
  (Core.machine (Env.plain 4 fun _ => 1)).feed Machine.anyInput 0
    ((Core.machine (Env.plain 4 fun _ => 1)).start 0) (inputs view)

theorem run_local (view : ℤ) :
    (Core.machine (Env.plain 4 fun _ => 1)).Local Machine.anyInput 0 (run view) :=
  Machine.Local.start.steps (Machine.feed_sound _ _ _)

end Mislabelled

theorem Env.plain_hash_ne_zero (n : ℕ) (coin : ℕ → UInt8) (b : Block ℕ) :
    b.hash (Env.plain n coin) ≠ (Env.plain n coin).zero := by
  intro h
  have hnil : b.preimage = [] := Env.plain_sum256_injective n coin h
  have hlen : 0 < b.preimage.length := by
    simp only [Block.preimage, List.length_append]
    have : 0 < (appendInt b.height).length := by
      rw [appendInt_natCast, List.length_map]
      exact Nat.length_toDigits_pos
    omega
  rw [hnil] at hlen
  exact absurd hlen (by simp)

theorem commits_elected_four :
    ((1, 0, HEIGHT_1), Mislabelled.first 0) ∈ (Mislabelled.run 0).outs.filterMap handedBlock ∧
      CommitsElected (Mislabelled.run 0) := by
  refine ⟨by decide +kernel, (commits_elected _ (Env.plain_hash_ne_zero 4 _)).1 0 _
    (Mislabelled.run_local 0) ?_⟩
  have hlab : ∀ p ∈ proposed ((Mislabelled.run 0).received.filter
      (Msg.passes (Env.plain 4 fun _ => 1) true)), p.b.At p.author p.view p.height ∧
      ∀ p' ∈ proposed ((Mislabelled.run 0).received.filter
        (Msg.passes (Env.plain 4 fun _ => 1) true)),
        p.b.hash (Env.plain 4 fun _ => 1) = p'.b.hash (Env.plain 4 fun _ => 1) →
        p.b.At p'.b.author p'.b.view p'.b.height := by
    decide +kernel
  exact ⟨fun p hp => (hlab p (mem_proposed hp)).1,
    fun p p' hp hp' => (hlab p (mem_proposed hp)).2 p' (mem_proposed hp')⟩

/-- **A block of another view is committed**: `processCoin(1, 0)` hands over a block that says view 100,
and from then on everything below view 100 is filtered. -/
theorem commits_mislabelled :
    (Core.machine (Env.plain 4 fun _ => 1)).Local Machine.anyInput 0 (Mislabelled.run 100) ∧
      (∀ m ∈ (Mislabelled.run 100).received, m.passes (Env.plain 4 fun _ => 1) true = true) ∧
      Out.event (.handed 1 0 HEIGHT_1 (Mislabelled.first 100)) ∈ (Mislabelled.run 100).outs ∧
      (Mislabelled.first 100).view = 100 ∧
      (Mislabelled.run 100).st.commitor.lastView = 100 :=
  ⟨Mislabelled.run_local 100, by decide +kernel, mem_of_handedBlock (by decide +kernel), rfl,
    by decide +kernel⟩

end S2Pac
