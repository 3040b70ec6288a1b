import S2Pac.BigCore
import S2Pac.Core
import S2Pac.MainLoop

/-!
# Leaving a view

`handleReportMsg` counts the reports of a view by their level, and the node leaves the view with the
first report of `LEVEL_2`, or with the `HightThreshold()`-th of one of the other levels. Reports of the
levels 1 and 0 are not added up: when all members have reported and neither level has enough of them,
nothing more can come, and the node stays (`view_change_starved`).
-/

set_option linter.unusedSectionVars false

namespace S2Pac

open Lib

variable {D : Type} [DecidableEq D] {J : Type}

/-- A node after it has handled the reports one after the other. -/
def handleReports (handle : Node D J → ReportMsg D → Moved D J) (c : Node D J)
    (rs : List (ReportMsg D)) : Node D J :=
  rs.foldl (fun c r => (handle c r).1) c

/-- How many of the reports are of a level. -/
def levelCount (rs : List (ReportMsg D)) (level : ℕ) : ℕ := rs.countP fun r => decide (r.level = level)

theorem levelCount_cons (r : ReportMsg D) (rs : List (ReportMsg D)) (level : ℕ) :
    levelCount (r :: rs) level = levelCount rs level + if r.level = level then 1 else 0 := by
  simp [levelCount, List.countP_cons]

/-- **The reports that let a node leave the view.** -/
def Decisive (E : Env D) (rs : List (ReportMsg D)) : Prop :=
  1 ≤ levelCount rs LEVEL_2 ∨ E.hightThreshold ≤ levelCount rs LEVEL_1 ∨
    E.hightThreshold ≤ levelCount rs LEVEL_0

/-- What the protocols do with a report that is of a proper level and signed. -/
structure CountsReports (E : Env D) (handle : Node D J → ReportMsg D → Moved D J) : Prop where
  left : ∀ c r, r.level ≤ LEVEL_0 → r.verify E = some true → r.view < c.view →
    (handle c r).1.view = c.view
  stays : ∀ c r, r.level ≤ LEVEL_0 → r.verify E = some true → r.view = c.view →
    (c.countReport E r).2 = false → (handle c r).1 = (c.countReport E r).1
  leaves : ∀ c r, r.level ≤ LEVEL_0 → r.verify E = some true → r.view = c.view →
    (c.countReport E r).2 = true → (handle c r).1.view = c.view + 1

theorem Core.advanceView_view (E : Env D) (self : NodeID) (c : Node D (SpbJob D)) (view : ℤ)
    (qc : Option (BlockQC D)) (docG : DocGQCMsg D) :
    (Core.advanceView E self c view qc docG).1.view = if view ≤ c.view then c.view else view := by
  unfold Core.advanceView
  split
  · rfl
  · exact (Node.getBatch_same { c with view := view }).view

theorem Core.countsReports (E : Env D) (self : NodeID) :
    CountsReports E (Core.handleReportMsg E self) where
  left c r _ _ hv := by
    simp [Core.handleReportMsg, Core.messageFilter, hv]
  stays c r hlev hok hv hthr := by
    simp [Core.handleReportMsg, Core.messageFilter, hv, hok, Node.verified, not_lt.2 hlev, hthr]
  leaves c r hlev hok hv hthr := by
    simp [Core.handleReportMsg, Core.messageFilter, hv, hok, Node.verified, not_lt.2 hlev, hthr,
      Core.advanceView_view]

theorem BigCore.advanceView_view (E : Env D) (self : NodeID) (c : BigNode D) (view : ℤ)
    (qc : Option (BlockQC D)) :
    (BigCore.advanceView E self c view qc).1.view = if view ≤ c.view then c.view else view := by
  unfold BigCore.advanceView
  split
  · rfl
  · exact (Node.getBatch_same { c with view := view }).view

/-- The big protocol does not filter the reports of a view that the node has left; it counts them. -/
theorem BigCore.countsReports (E : Env D) (self : NodeID) :
    CountsReports E (BigCore.handleReportMsg E self) where
  left c r hlev hok hv := by
    simp only [BigCore.handleReportMsg, hok, Node.verified, not_lt.2 hlev, if_false]
    split
    · rw [BigCore.advanceView_view]
      exact if_pos hv
    · rfl
  stays c r hlev hok hv hthr := by
    simp [BigCore.handleReportMsg, hok, Node.verified, not_lt.2 hlev, hthr]
  leaves c r hlev hok hv hthr := by
    simp [BigCore.handleReportMsg, hv, hok, Node.verified, not_lt.2 hlev, hthr,
      BigCore.advanceView_view]

section Runs

variable {E : Env D} {handle : Node D J → ReportMsg D → Moved D J} {view : ℤ}

theorem handleReports_left (hh : CountsReports E handle) {rs : List (ReportMsg D)}
    (hrs : ∀ r ∈ rs, r.view = view ∧ r.level ≤ LEVEL_0 ∧ r.verify E = some true) {c : Node D J}
    (hc : view < c.view) : view < (handleReports handle c rs).view := by
  induction rs generalizing c with
  | nil => exact hc
  | cons r rs ih =>
    obtain ⟨hv, hlev, hok⟩ := hrs r List.mem_cons_self
    refine ih (fun r hr => hrs r (List.mem_cons_of_mem _ hr)) ?_
    rw [hh.left c r hlev hok (hv ▸ hc)]
    exact hc

/-- While a node stays, its counters are those of the reports it has handled; it leaves with the report
that takes one of them to its threshold. -/
theorem handleReports_iff (hh : CountsReports E handle) {rs : List (ReportMsg D)}
    (hrs : ∀ r ∈ rs, r.view = view ∧ r.level ≤ LEVEL_0 ∧ r.verify E = some true) {c : Node D J}
    (hc : c.view = view) (hb : Turns.Below E (c.reportNums view)) :
    view + 1 ≤ (handleReports handle c rs).view ↔
      1 ≤ c.reportNums view LEVEL_2 + levelCount rs LEVEL_2 ∨
      E.hightThreshold ≤ c.reportNums view LEVEL_1 + levelCount rs LEVEL_1 ∨
      E.hightThreshold ≤ c.reportNums view LEVEL_0 + levelCount rs LEVEL_0 := by
  induction rs generalizing c with
  | nil =>
    obtain ⟨h2, h1, h0⟩ := hb
    simp only [handleReports, levelCount, List.foldl_nil, List.countP_nil]
    omega
  | cons r rs ih =>
    obtain ⟨hv, hlev, hok⟩ := hrs r List.mem_cons_self
    have hrs' := fun r hr => hrs r (List.mem_cons_of_mem _ hr)
    have hnums : ∀ level, (c.countReport E r).1.reportNums view level =
        c.reportNums view level + if r.level = level then 1 else 0 := by
      intro level
      rw [Turns.countReport_nums]
      simp [hv]
    change view + 1 ≤ (handleReports handle (handle c r).1 rs).view ↔ _
    have hthr := Turns.countReport_false (E := E) (c := c) (r := r)
    rw [hv, hnums, hnums, hnums] at hthr
    rw [levelCount_cons, levelCount_cons, levelCount_cons]
    have hone : ∀ level, (if r.level = level then 1 else 0) ≤ 1 := by
      intro level
      split <;> omega
    have h₂ := hone LEVEL_2
    have h₁ := hone LEVEL_1
    have h₀ := hone LEVEL_0
    obtain ⟨hb₂, hb₁, hb₀⟩ := hb
    -- the node stays as long as the report takes no counter to its threshold
    cases hmay : (c.countReport E r).2 with
    | false =>
      have hbelow := hthr.1 hmay
      rw [hh.stays c r hlev hok (hv.trans hc.symm) hmay]
      have hb' : Turns.Below E ((c.countReport E r).1.reportNums view) := by
        refine ⟨?_, ?_, ?_⟩ <;> rw [hnums] <;> omega
      have hih := ih hrs' (c := (c.countReport E r).1) hc hb'
      rw [hnums, hnums, hnums] at hih
      omega
    | true =>
      have hmay' : ¬ (c.countReport E r).2 = false := by simp [hmay]
      rw [hthr] at hmay'
      have hleft := handleReports_left hh hrs' (c := (handle c r).1)
        (by rw [hh.leaves c r hlev hok (hv.trans hc.symm) hmay]; omega)
      omega

end Runs

/-- **When a node leaves a view**: a node in view `view` that has counted none of its reports has left
it after it has handled the reports `rs`, in whatever order, exactly when they are decisive. -/
theorem view_change_iff (E : Env D) (self : NodeID) (view : ℤ) (rs : List (ReportMsg D))
    (hrs : ∀ r ∈ rs, r.view = view ∧ r.level ≤ LEVEL_0 ∧ r.verify E = some true)
    (c : Node D (SpbJob D)) (hc : c.view = view ∧ ∀ level, c.reportNums view level = 0)
    (b : BigNode D) (hb : b.view = view ∧ ∀ level, b.reportNums view level = 0) :
    (view + 1 ≤ (handleReports (Core.handleReportMsg E self) c rs).view ↔ Decisive E rs) ∧
      (view + 1 ≤ (handleReports (BigCore.handleReportMsg E self) b rs).view ↔ Decisive E rs) := by
  have hpos : 0 < E.hightThreshold := Nat.succ_pos _
  have hbelow : ∀ nums : ℕ → ℕ, (∀ level, nums level = 0) → Turns.Below E nums := fun nums h =>
    ⟨h _, (h _).symm ▸ hpos, (h _).symm ▸ hpos⟩
  have hlean := handleReports_iff (Core.countsReports E self) hrs hc.1 (hbelow _ hc.2)
  have hbig := handleReports_iff (BigCore.countsReports E self) hrs hb.1 (hbelow _ hb.2)
  simp only [hc.2, hb.2, Nat.zero_add] at hlean hbig
  exact ⟨hlean, hbig⟩

/-- The reports of four members, at these levels. -/
def fourReports (l₀ l₁ l₂ l₃ : ℕ) : List (ReportMsg ℕ) :=
  [⟨0, 0, l₀, none, []⟩, ⟨1, 0, l₁, none, []⟩, ⟨2, 0, l₂, none, []⟩, ⟨3, 0, l₃, none, []⟩]

theorem view_change_iff_four :
    0 + 1 ≤ (handleReports (Core.handleReportMsg (Env.plain 4 fun _ => 0) 0)
        (Node.new (Env.plain 4 fun _ => 0)) (fourReports LEVEL_0 LEVEL_1 LEVEL_0 LEVEL_0)).view ∧
      0 + 1 ≤ (handleReports (BigCore.handleReportMsg (Env.plain 4 fun _ => 0) 0)
        (Node.new (Env.plain 4 fun _ => 0)) (fourReports LEVEL_0 LEVEL_1 LEVEL_0 LEVEL_0)).view := by
  obtain ⟨hlean, hbig⟩ := view_change_iff (Env.plain 4 fun _ => 0) 0 0
    (fourReports LEVEL_0 LEVEL_1 LEVEL_0 LEVEL_0) (by decide) (Node.new _) ⟨rfl, fun _ => rfl⟩
    (Node.new _) ⟨rfl, fun _ => rfl⟩
  have hdec : Decisive (Env.plain 4 fun _ => 0) (fourReports LEVEL_0 LEVEL_1 LEVEL_0 LEVEL_0) :=
    Or.inr (Or.inr (by decide))
  exact ⟨hlean.2 hdec, hbig.2 hdec⟩

/-- **A view change can be starved**: the four members have reported view 0, two at `LEVEL_0` and two at
`LEVEL_1`, and the node stays in it. -/
theorem view_change_starved :
    (fourReports LEVEL_0 LEVEL_0 LEVEL_1 LEVEL_1).map ReportMsg.author =
        (Env.plain 4 fun _ => 0).members ∧
      (∀ r ∈ fourReports LEVEL_0 LEVEL_0 LEVEL_1 LEVEL_1,
        r.view = 0 ∧ r.level ≤ LEVEL_0 ∧ r.verify (Env.plain 4 fun _ => 0) = some true) ∧
      (handleReports (Core.handleReportMsg (Env.plain 4 fun _ => 0) 0)
        (Node.new (Env.plain 4 fun _ => 0)) (fourReports LEVEL_0 LEVEL_0 LEVEL_1 LEVEL_1)).view = 0 ∧
      (handleReports (BigCore.handleReportMsg (Env.plain 4 fun _ => 0) 0)
        (Node.new (Env.plain 4 fun _ => 0)) (fourReports LEVEL_0 LEVEL_0 LEVEL_1 LEVEL_1)).view =
        0 := by
  decide

end S2Pac
