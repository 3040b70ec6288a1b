import S2Pac.DAGBigCore.BareQuorum
import S2Pac.Rest

/-!
# The DAG variant with the fewest nodes goes through all views

A bare quorum can always take a step (`never_stops`). While no node is beyond a view there are only finitely
many steps to take: a node proposes two blocks in a view, votes once for a block and casts one speed vote for
a proposer, so that the messages are bounded by the views (`sent_le`); the shares of the coins are not, but
they are only sent in answer to speed votes, and set nothing else off in the network. Between two messages a
node comes to rest, and so does its commitor. So whatever the order of the steps is, every view is reached
(`every_view_reached`), and no assumption of fairness is needed.

A message is in flight here until it is taken, and there is room for all of them. The channels of the code
hold a thousand messages each, and nobody takes any off the channel of a silent node.
-/

set_option linter.unusedSectionVars false

namespace S2Pac

open Lib BigSPB

variable {D : Type} [DecidableEq D]

namespace DAGBigCore

variable {E : Env D} {self : NodeID} {c : BigNode D}
  {G : Machine.Guard NodeID (BigNode D) (Msg D) Act (Event D)} {h : NodeHost D (BigJob D)}

/-! ## The messages of a view -/

/-- The messages of which there are finitely many in a view. -/
def isTold : Msg D → Bool
  | .propose _ => true
  | .vote _ => true
  | .speedVote _ => true
  | _ => false

/-- What such a message is about, which tells those of one node apart. -/
def label : Msg D → ℕ × ℤ × NodeID × ℕ
  | .propose p => (0, p.view, p.author, p.height)
  | .vote v => (1, v.view, v.proposer, v.height)
  | .speedVote sv => (2, sv.view, sv.proposer, 0)
  | m => (3, 0, m.author, 0)

/-- The labels of the views up to `view`. -/
def labels (E : Env D) (view : ℤ) : Finset (ℕ × ℤ × NodeID × ℕ) :=
  Finset.range 3 ×ˢ (Finset.range (view + 1).toNat).map ⟨Int.ofNat, fun _ _ => Int.ofNat.inj⟩ ×ˢ
    E.members.toFinset ×ˢ Finset.range 2

theorem mem_labels_iff {t height : ℕ} {view view' : ℤ} {p : NodeID} :
    (t, view', p, height) ∈ labels E view ↔
      t < 3 ∧ (0 ≤ view' ∧ view' ≤ view) ∧ p ∈ E.members ∧ height < 2 := by
  have hviews : (∃ k, k < (view + 1).toNat ∧ (k : ℤ) = view') ↔ 0 ≤ view' ∧ view' ≤ view := by
    constructor
    · rintro ⟨k, hk, rfl⟩
      omega
    · rintro ⟨h0, hle⟩
      exact ⟨view'.toNat, by omega, Int.toNat_of_nonneg h0⟩
  simp only [labels, Finset.mem_product, Finset.mem_range, Finset.mem_map, List.mem_toFinset]
  exact and_congr Iff.rfl (and_congr hviews Iff.rfl)

theorem label_cases {m : Msg D} {t height : ℕ} {view : ℤ} {p : NodeID} (ht : isTold m = true)
    (hl : label m = (t, view, p, height)) :
    t = 0 ∧ Msg.isProposal view height m = true ∨ t = 1 ∧ Msg.isVote (view, p) height m = true ∨
      t = 2 ∧ Msg.isSpeedVote (view, p) m = true := by
  cases m with
  | propose q => exact Or.inl (by simp_all [label])
  | vote v => exact Or.inr (Or.inl (by simp_all [label]))
  | speedVote sv => exact Or.inr (Or.inr (by simp_all [label]))
  | _ => cases ht

/-- How many of them a node has sent. -/
def sent (h : NodeHost D (BigJob D)) : ℕ := h.outs.countP (Out.carries isTold)

section World

variable {w : NodeWorld D (BigJob D)} (hw : (machine E).Reach Machine.anyInput w)
include hw

theorem bounds_of_key {p : NodeID} {view : ℤ} {height : ℕ}
    (hk : (view, height) ∈ proposalKeys (w.host p).outs) :
    0 ≤ view ∧ view ≤ (w.host p).st.view ∧ height < 2 := by
  obtain ⟨o, ho, q, hmsg, he⟩ := exists_of_mem_proposalKeys hk
  obtain ⟨hv, hh⟩ := Prod.mk.inj he
  have hq := proposal (hw.local p) ho hmsg
  refine ⟨hv ▸ hq.nonneg, ?_, Nat.lt_succ_of_le (hh ▸ hq.height_le)⟩
  rcases (ordered (hw.local p)).last _ hk with he | hbefore
  · exact (congrArg Prod.fst he).le
  · unfold Before at hbefore
    dsimp only at hbefore
    omega

variable {view : ℤ} (hview : ∀ i ∈ E.live, (w.host i).st.view ≤ view)
include hview

theorem mem_labels {t height : ℕ} {view' : ℤ} {p : NodeID} (ht : t < 3) (hp : p ∈ E.live)
    (hk : (view', height) ∈ proposalKeys (w.host p).outs) :
    (t, view', p, height) ∈ labels E view := by
  obtain ⟨h0, hle, hh⟩ := bounds_of_key hw hk
  have hle := hle.trans (hview p hp)
  exact mem_labels_iff.2 ⟨ht, ⟨h0, hle⟩, (Env.mem_live.1 hp).1, hh⟩

theorem label_mem {i : NodeID} (hi : i ∈ E.members) {o : NodeOut D} (ho : o ∈ (w.host i).outs)
    {m : Msg D} (hm : o.msg = some m) (ht : isTold m = true) : label m ∈ labels E view := by
  have hlive := live_of_sent hw hi ho hm
  cases m with
  | propose p =>
    have ha := (proposal (hw.local i) ho hm).author.1
    rw [label, ha]
    exact mem_labels hw hview (by decide) hlive (mem_proposalKeys ho hm)
  | vote v =>
    obtain ⟨p, hp, -, rfl⟩ := runs.voted (hw.local i) ho hm
    have hb := (orderly hw).backed_of_received (E := E) hw hi hp
    obtain ⟨q, ⟨hP, o', ho', hm'⟩, -⟩ := (orderly hw).offered_of_backed hb
    have hk := mem_proposalKeys ho' hm'
    obtain ⟨hqk, hqh⟩ : (q.view, q.author) = (p.view, p.author) ∧ q.height = p.height :=
      of_decide_eq_true hP
    rw [(Prod.mk.inj hqk).1, hqh] at hk
    have hlabel : label (.vote (newVoteMsg E i p.b) : Msg D) = (1, p.view, p.author, p.height) := by
      rw [← hb.author, ← hb.view_eq, ← hb.height_eq]
      rfl
    rw [hlabel]
    exact mem_labels hw hview (by decide) (live_of_sent hw hb.host ho' hm') hk
  | speedVote sv =>
    have hc := certified (k := (sv.view, sv.proposer)) (runs.pool (hw.local i))
      (Or.inr ⟨o, ho, Out.carries_iff.2 ⟨_, hm, by simp⟩⟩)
    obtain ⟨hp, hk, -⟩ := live_of_certified hw hi hc
    obtain ⟨h0, hle, -⟩ := bounds_of_key hw hk
    have hle := hle.trans (hview _ hp)
    exact mem_labels_iff.2 ⟨by decide, ⟨h0, hle⟩, (Env.mem_live.1 hp).1, by decide⟩
  | _ => cases ht

omit hview in
theorem label_once {i : NodeID} (hi : i ∈ E.members) (l : Option (ℕ × ℤ × NodeID × ℕ)) :
    (w.host i).outs.countP (fun o => o.carries isTold && decide (o.msg.map label = l)) ≤ 1 := by
  -- the messages that the label can stand for
  have hle {P : Msg D → Bool} (hP : ∀ m, isTold m = true → some (label m) = l → P m = true)
      (hone : (w.host i).outs.countP (Out.carries P) ≤ 1) :
      (w.host i).outs.countP (fun o => o.carries isTold && decide (o.msg.map label = l)) ≤ 1 := by
    refine (List.countP_mono_left fun o _ ho => ?_).trans hone
    obtain ⟨hc, hl⟩ := Bool.and_eq_true_iff.1 ho
    obtain ⟨m, hm, ht⟩ := Out.carries_iff.1 hc
    rw [hm] at hl
    exact Out.carries_iff.2 ⟨m, hm, hP m ht (of_decide_eq_true hl)⟩
  have hvoting := runs.voting (E := E) (orderly hw) hw
  rcases l with - | ⟨t, view', p, height⟩
  · refine hle (P := fun _ => false) (fun m _ hl => absurd hl (Option.some_ne_none _)) ?_
    refine (List.countP_eq_zero.2 fun o _ hc => ?_).le.trans zero_le_one
    obtain ⟨m, -, hm⟩ := Out.carries_iff.1 hc
    cases hm
  · rcases t with - | - | t
    · exact hle (P := Msg.isProposal view' height) (fun m ht hl => by
        simpa using label_cases ht (Option.some.inj hl)) (proposal_once (hw.local i) _ _)
    · exact hle (P := Msg.isVote (view', p) height) (fun m ht hl => by
        simpa using label_cases ht (Option.some.inj hl)) (hvoting.once i hi _ _)
    · refine hle (P := Msg.isSpeedVote (view', p)) (fun m ht hl => ?_)
        (speedVote_le_one (runs.pool (hw.local i)))
      rcases label_cases ht (Option.some.inj hl) with ⟨h, -⟩ | ⟨h, -⟩ | ⟨-, hsv⟩
      · cases h
      · cases h
      · exact hsv

/-- **The messages of the views up to `view` are bounded.** -/
theorem sent_le {i : NodeID} (hi : i ∈ E.members) : sent (w.host i) ≤ (labels E view).card := by
  refine (countP_le_card (f := fun o : NodeOut D => o.msg.map label) (label_once hw hi)).trans ?_
  rw [← Finset.card_image_of_injective (labels E view) (Option.some_injective _)]
  refine Finset.card_le_card fun l hl => ?_
  obtain ⟨o, hmem, rfl⟩ := List.mem_map.1 (List.mem_toFinset.1 hl)
  obtain ⟨ho, hc⟩ := List.mem_filter.1 hmem
  obtain ⟨m, hm, ht⟩ := Out.carries_iff.1 hc
  rw [hm, Option.map_some]
  exact Finset.mem_image_of_mem _ (label_mem hw hview hi ho hm ht)

end World

/-! ## What steps send -/

/-- What comes in is answered by a share at most, and only if it is a speed vote. -/
theorem outs_of_handling {P : Goroutines D (BigJob D)} {m : Msg D} {c' : BigNode D} {os : List (NodeOut D)}
    (h : Handling E self .dag P c m c' os) :
    os = [] ∨ isTold m = true ∧ ∃ e, os = [.bcast (.elect e)] := by
  cases h with
  | counted _ _ =>
    unfold BigCore.countSpeedVote
    dsimp only
    split
    · exact Or.inr ⟨rfl, _, rfl⟩
    · exact Or.inl rfl
  | finVote hlean _ | tossed hlean _ _ _ => cases hlean
  | advance hdag _ _ _ => exact absurd rfl hdag
  | _ => exact Or.inl rfl

theorem isTold_of_act {a : Act} {r : BigMoved D} (hr : act E self c a = some r) {o : NodeOut D}
    (ho : o ∈ r.2) {m : Msg D} (hm : o.msg = some m) : isTold m = true := by
  have hno : ∀ e, m ≠ .elect e := by
    rintro e rfl
    cases (ballots E).act _ _ _ _ hr with
    | other _ hno => exact hno o ho e hm
  obtain ⟨c', os⟩ := r
  have hmove := move_act hr
  dsimp only at hmove ho
  cases hmove with
  | aside _ hq =>
    have hq := hq o ho
    unfold Quiet at hq
    rw [hm] at hq
    cases m with
    | vote v => rfl
    | speedVote sv => rfl
    | elect e => exact absurd rfl (hno e)
    | _ => exact hq.elim
  | boot _ _ =>
    rw [List.mem_singleton.1 ho] at hm
    cases hm
    rfl
  | process hs =>
    cases hs with
    | handed _ _ =>
      rw [List.mem_singleton.1 ho] at hm
      cases hm
    | _ => exact absurd ho List.not_mem_nil
  | propose _ _ _ _ =>
    rw [List.mem_singleton.1 ho] at hm
    cases hm
    rfl
  | _ => exact absurd ho List.not_mem_nil

end DAGBigCore

/-! ## What the commitor has to do -/

/-- What is left of a traversal: a step for every block on the queue, and one to end it. -/
def Work.toDo : Work D → Multiset ℕ
  | .bfs queue => Multiset.replicate (queue.length + 1) 0
  | _ => 0

/-- **What the DAG commitor has to do**: every block of the hashes `H` that is not committed puts others on
the queue, and a block on the channel starts a traversal. -/
def Commitor.toDo (H : Finset D) (c : Commitor D) : Multiset ℕ :=
  Multiset.replicate (H \ c.committedBlcoks.toFinset).card 2 +
    Multiset.replicate c.blocksChan.length 1 + c.work.toDo

/-- A step of the commitor does some of it, if it knows the blocks that it has in hand. -/
theorem DAGCommitor.easesMore {E : Env D} {st : Store D} {c c' : Commitor D} {bs : List (Block D)}
    {H : Finset D} (hH : ∀ b ∈ c.blocks, b.hash E ∈ H) (hr : run E st c = some (c', bs)) :
    EasesMore (c'.toDo H) (c.toDo H) := by
  have hzero (n : ℕ) (w : Multiset ℕ) :
      Eases (w + Multiset.replicate n 0) (w + Multiset.replicate (n + 1) 0) := by
    rw [Multiset.replicate_succ, ← Multiset.singleton_add, add_comm {0}, ← add_assoc]
    simpa using eases_piece (a := 0) (t := 0) (w + Multiset.replicate n 0) (by simp)
  cases step_of_run hr with
  | take hw hch =>
    refine Relation.TransGen.single ?_
    simp only [Commitor.toDo, hw, hch, Work.toDo, List.length_cons, add_zero,
      Multiset.replicate_succ _ (List.length _)]
    rw [← Multiset.singleton_add, add_comm {1}, ← add_assoc]
    exact eases_piece _ fun b hb => by simp [Multiset.eq_of_mem_replicate hb]
  | finish hw =>
    refine Relation.TransGen.single ?_
    simp only [Commitor.toDo, hw, Work.toDo]
    exact hzero 0 _
  | skip hw _ =>
    refine Relation.TransGen.single ?_
    simp only [Commitor.toDo, hw, Work.toDo]
    exact hzero _ _
  | @emit b rest hw hnot =>
    have hb : b.hash E ∈ H := hH b (by simp [Commitor.blocks, Work.blocks, hw])
    have hcard : (H \ c.committedBlcoks.toFinset).card =
        (H \ (b.hash E :: c.committedBlcoks).toFinset).card + 1 := by
      have hins : (b.hash E :: c.committedBlcoks).toFinset =
          insert (b.hash E) c.committedBlcoks.toFinset := List.toFinset_cons
      rw [hins, Finset.sdiff_insert, Finset.card_erase_add_one]
      exact Finset.mem_sdiff.2 ⟨hb, by simpa using hnot⟩
    have hpiece (k m n : ℕ) : Eases
        (Multiset.replicate k 2 + Multiset.replicate m 1 + Multiset.replicate (rest.length + n + 1) 0)
        (Multiset.replicate (k + 1) 2 + Multiset.replicate m 1 +
          Multiset.replicate (rest.length + 1) 0) := by
      have h := eases_piece (a := 2) (t := Multiset.replicate n 0) (Multiset.replicate k 2 +
        Multiset.replicate m 1 + Multiset.replicate (rest.length + 1) 0) fun b hb => by
          simp [Multiset.eq_of_mem_replicate hb]
      rw [add_assoc _ (Multiset.replicate (rest.length + 1) 0), ← Multiset.replicate_add,
        Nat.add_right_comm] at h
      have hlast (u v : Multiset ℕ) : Multiset.replicate (k + 1) 2 + u + v =
          Multiset.replicate k 2 + u + v + {2} := by
        rw [Multiset.replicate_succ, ← Multiset.singleton_add, add_assoc, add_assoc, add_comm {2},
          ← add_assoc]
      rw [hlast]
      exact h
    -- the block comes off the queue, and then it is committed
    simp only [Commitor.toDo, hw, Work.toDo, hcard, List.length_append, List.length_cons]
    exact Relation.TransGen.tail (Relation.TransGen.single (hpiece _ _ _)) (hzero _ _)

/-! ## The rank of a world -/

namespace DAGBigCore

variable {E : Env D} {self : NodeID} {w w' : NodeWorld D (BigJob D)}

/-- The hashes of the blocks that have come in. -/
def known (E : Env D) (l : List (Msg D)) : Finset D :=
  (l.filterMap fun m =>
    match m with
    | .propose p => some (p.b.hash E)
    | _ => none).toFinset

theorem mem_known {l : List (Msg D)} {b : Block D} (h : Arrived l b) : b.hash E ∈ known E l := by
  obtain ⟨p, hp, rfl⟩ := h
  exact List.mem_toFinset.2 (List.mem_filterMap.2 ⟨_, hp, rfl⟩)

/-- A message in flight weighs more than the shares that it can be answered with. -/
def weight (E : Env D) (p : NodeID × Msg D) : ℕ := if isTold p.2 then E.n + 1 else 1

/-- What is in flight. -/
def load (E : Env D) (w : NodeWorld D (BigJob D)) : ℕ := (w.net.map (weight E)).sum

/-- **The rank of a world** while at most `bound` messages of a node are told: those still to come, what is
in flight, what the nodes have to do, and what their commitors have to do. -/
def rank (E : Env D) (bound : ℕ) (w : NodeWorld D (BigJob D)) :
    ℕ × ℕ × Multiset ℕ × Multiset ℕ :=
  (∑ i ∈ (machine E).hosts.toFinset, (bound - sent (w.host i)), load E w,
    ∑ i ∈ (machine E).hosts.toFinset, (w.host i).st.work E.n BigSPB.stage,
    ∑ i ∈ (machine E).hosts.toFinset, (w.host i).st.commitor.toDo (known E (w.host i).received))

/-- Ranks are compared from the left. -/
abbrev Lower : ℕ × ℕ × Multiset ℕ × Multiset ℕ → ℕ × ℕ × Multiset ℕ × Multiset ℕ → Prop :=
  Prod.Lex (· < ·) (Prod.Lex (· < ·) (Prod.Lex Eases EasesMore))

theorem wellFounded_lower : WellFounded Lower :=
  Nat.lt_wfRel.wf.prod_lex (Nat.lt_wfRel.wf.prod_lex
    (wellFounded_eases.prod_lex wellFounded_eases.transGen))

/-- The steps that are not those of the pools. -/
def Unpooled : Machine.Guard NodeID (BigNode D) (Msg D) Act (Event D) :=
  fun _ _ x => ∀ txs, x ≠ .act (.makeBatch txs)

theorem weight_pos (p : NodeID × Msg D) : 0 < weight E p := by
  unfold weight
  split <;> omega

theorem load_packets (src : NodeID) (e : ElectMsg) :
    (((machine E).packets src (.bcast (.elect e))).map (weight E)).sum ≤ E.n := by
  have hone : ∀ p ∈ (machine E).packets src (.bcast (.elect e)), weight E p = 1 := by
    intro p hp
    obtain ⟨i, -, hi⟩ := List.mem_filterMap.1 hp
    obtain ⟨m, hm, rfl⟩ := Option.map_eq_some_iff.1 hi
    cases hm
    rfl
  rw [List.map_congr_left hone, List.map_const', List.sum_replicate, smul_eq_mul, mul_one]
  refine (List.length_filterMap_le _ _).trans (le_of_eq ?_)
  show E.members.length = E.n
  simp [Env.members]

/-- **A message that is taken makes the load less**, whatever it is answered with. -/
theorem load_deliver {k : ℕ} {i : NodeID} {m : Msg D} (hk : w.net[k]? = some (i, m))
    {r : NodeHost D (BigJob D) × List (NodeOut D)}
    (hr : r.2 = [] ∨ isTold m = true ∧ ∃ e, r.2 = [.bcast (.elect e)]) :
    load E ((machine E).put w i (w.net.eraseIdx k) r) < load E w := by
  obtain ⟨hlt, hget⟩ := List.getElem?_eq_some_iff.1 hk
  have hsplit : load E w = weight E (i, m) + ((w.net.eraseIdx k).map (weight E)).sum := by
    have hperm := ((List.getElem_cons_eraseIdx_perm hlt).map (weight E)).sum_eq
    rw [List.map_cons, List.sum_cons, hget] at hperm
    exact hperm.symm
  show (((w.net.eraseIdx k) ++ r.2.flatMap ((machine E).packets i)).map (weight E)).sum < load E w
  rw [hsplit, List.map_append, List.sum_append]
  rcases hr with hr | ⟨ht, e, hr⟩
  · rw [hr]
    have := weight_pos (E := E) (i, m)
    simp only [List.flatMap_nil, List.map_nil, List.sum_nil]
    omega
  · have hle := load_packets (E := E) i e
    have hw : weight E (i, m) = E.n + 1 := if_pos ht
    rw [hr, List.flatMap_cons, List.flatMap_nil, List.append_nil]
    omega

theorem sent_append {h : NodeHost D (BigJob D)} {c' : BigNode D} {l : List (Msg D)}
    {os : List (NodeOut D)} :
    sent ⟨c', l, h.outs ++ os⟩ = sent h + os.countP (Out.carries isTold) :=
  List.countP_append

theorem sent_quiet {h : NodeHost D (BigJob D)} {c' : BigNode D} {l : List (Msg D)}
    {os : List (NodeOut D)} (hos : ∀ o ∈ os, o.carries isTold = false) :
    sent ⟨c', l, h.outs ++ os⟩ = sent h := by
  rw [sent_append, List.countP_eq_zero.2 fun o ho => by simp [hos o ho], Nat.add_zero]

theorem lower_deliver {k : ℕ} {i : NodeID} {m : Msg D} (hk : w.net[k]? = some (i, m))
    (hi : i ∈ (machine E).hosts) {r : NodeHost D (BigJob D) × List (NodeOut D)}
    (hr : (machine E).input i (w.host i) (.recv m) = some r) (bound : ℕ) :
    Lower (rank E bound ((machine E).put w i (w.net.eraseIdx k) r)) (rank E bound w) := by
  obtain ⟨⟨c', os⟩, hs, rfl⟩ := Option.map_eq_some_iff.1 hr
  have houts : os = [] ∨ isTold m = true ∧ ∃ e, os = [.bcast (.elect e)] :=
    outs_of_handling ((branches E).recv _ _ _ _ hs).2
  refine Prod.lex_def.2 (Or.inr ⟨?_, Prod.Lex.left _ _ (load_deliver hk houts)⟩)
  refine Machine.sum_put_eq (fun h => bound - sent h) hi (congrArg _ (sent_quiet fun o ho => ?_))
  rcases houts with rfl | ⟨-, e, rfl⟩
  · exact absurd ho List.not_mem_nil
  · rw [List.mem_singleton.1 ho]
    rfl

theorem lower_tell {i : NodeID} (hi : i ∈ (machine E).hosts) {net : List (NodeID × Msg D)}
    {r : NodeHost D (BigJob D) × List (NodeOut D)} {bound : ℕ} (hlt : sent (w.host i) < sent r.1)
    (hle : sent r.1 ≤ bound) :
    Lower (rank E bound ((machine E).put w i net r)) (rank E bound w) := by
  refine Prod.Lex.left _ _ ?_
  rw [Machine.sum_put (fun h => bound - sent h) hi,
    ← Finset.add_sum_erase _ (fun j => bound - sent (w.host j)) (List.mem_toFinset.2 hi)]
  omega

theorem lower_work {i : NodeID} (hi : i ∈ (machine E).hosts)
    {h' : NodeHost D (BigJob D)} {os : List (NodeOut D)} (hos : ∀ o ∈ os, o.msg = none)
    (hsent : sent h' = sent (w.host i)) {bound : ℕ}
    (heases : Prod.Lex Eases EasesMore
      (h'.st.work E.n BigSPB.stage, h'.st.commitor.toDo (known E h'.received))
      ((w.host i).st.work E.n BigSPB.stage,
        (w.host i).st.commitor.toDo (known E (w.host i).received))) :
    Lower (rank E bound ((machine E).put w i w.net (h', os))) (rank E bound w) := by
  have hpackets : os.flatMap ((machine E).packets i) = [] := by
    refine List.flatMap_eq_nil_iff.2 fun o ho => List.filterMap_eq_nil_iff.2 fun j _ => ?_
    cases o with
    | event e => rfl
    | _ => cases hos _ ho
  have hload : load E ((machine E).put w i w.net (h', os)) = load E w := by
    show ((w.net ++ os.flatMap ((machine E).packets i)).map (weight E)).sum = _
    rw [hpackets, List.append_nil, load]
  refine Prod.lex_def.2 (Or.inr ⟨Machine.sum_put_eq (fun h => bound - sent h) hi (by rw [hsent]), ?_⟩)
  refine Prod.lex_def.2 (Or.inr ⟨hload, ?_⟩)
  rcases Prod.lex_def.1 heases with hwork | ⟨hwork, hdo⟩
  · refine Prod.Lex.left _ _ ?_
    rw [Machine.sum_put (fun h => h.st.work E.n BigSPB.stage) hi,
      ← Finset.add_sum_erase _ (fun j => (w.host j).st.work E.n BigSPB.stage)
        (List.mem_toFinset.2 hi)]
    exact hwork.add _
  · have hsame : ∑ j ∈ (machine E).hosts.toFinset,
        (((machine E).put w i w.net (h', os)).host j).st.work E.n BigSPB.stage =
        ∑ j ∈ (machine E).hosts.toFinset, (w.host j).st.work E.n BigSPB.stage :=
      Machine.sum_put_eq (fun h => h.st.work E.n BigSPB.stage) hi hwork
    refine Prod.lex_def.2 (Or.inr ⟨hsame, ?_⟩)
    dsimp only [rank]
    rw [Machine.sum_put (fun h => h.st.commitor.toDo (known E h.received)) hi,
      ← Finset.add_sum_erase _ (fun j => (w.host j).st.commitor.toDo (known E (w.host j).received))
        (List.mem_toFinset.2 hi)]
    exact hdo.add _

theorem eases_of_act {h : NodeHost D (BigJob D)} (hl : (machine E).Local Machine.anyInput self h)
    {a : Act} (ha : ∀ txs, a ≠ .makeBatch txs) {c' : BigNode D} {os : List (NodeOut D)}
    (hr : act E self h.st a = some (c', os)) (hos : ∀ o ∈ os, o.msg = none) :
    Prod.Lex Eases EasesMore
      (c'.work E.n BigSPB.stage, c'.commitor.toDo (known E h.received))
      (h.st.work E.n BigSPB.stage, h.st.commitor.toDo (known E h.received)) := by
  have work (ha : AtWork self h (.act a)) :
      Eases (c'.work E.n BigSPB.stage) (h.st.work E.n BigSPB.stage) :=
    (acting hr).eases ha fun k j s js os _ => BigSPB.stage_falls (conducts E) hl k j s js os
  cases a with
  | boot =>
    cases acting hr with
    | boot _ _ => cases hos _ (List.mem_singleton_self _)
  | task i => exact Prod.Lex.left _ _ (work trivial)
  | main => exact Prod.Lex.left _ _ (work trivial)
  | callback => exact Prod.Lex.left _ _ (work trivial)
  | commitor =>
    cases acting hr with
    | commitor hrun =>
      refine Prod.lex_def.2 (Or.inr ⟨rfl, DAGCommitor.easesMore (fun b hb => ?_) hrun⟩)
      exact mem_known (((conducts E).source (DAGCommitor.draws E)
        (fun _ _ => step_of_commitor) hl).1 b hb)
  | makeBatch txs => exact absurd rfl (ha txs)

/-- **Every step lowers the rank** while nobody is beyond `view`. -/
theorem lowers (hw : (machine E).Reach Machine.anyInput w) (hs : (machine E).Step Unpooled w w')
    (hw' : (machine E).Reach Machine.anyInput w') {view : ℤ}
    (hview : ∀ i ∈ E.live, (w'.host i).st.view ≤ view) :
    Lower (rank E (labels E view).card w') (rank E (labels E view).card w) := by
  cases hs with
  | deliver hk _ hr =>
    exact lower_deliver hk (Machine.Reach.net_hosts hw (List.mem_of_getElem? hk)) hr _
  | @act i a r hi hg hr =>
    obtain ⟨⟨c', os⟩, hact, rfl⟩ := Option.map_eq_some_iff.1 hr
    have hact : act E i (w.host i).st a = some (c', os) := hact
    by_cases hos : ∀ o ∈ os, o.msg = none
    · refine lower_work hi hos (sent_quiet fun o ho => ?_) ?_
      · rw [Out.carries, hos o ho]
        rfl
      · exact eases_of_act (hw.local i) (fun txs he => hg txs (he ▸ rfl)) hact hos
    · obtain ⟨o, ho, hm⟩ : ∃ o ∈ os, o.msg ≠ none := by simpa using hos
      obtain ⟨m, hm⟩ := Option.ne_none_iff_exists'.1 hm
      have hle := sent_le hw' hview hi
      rw [Machine.put_host_self] at hle
      refine lower_tell hi ?_ hle
      have hpos : 0 < os.countP (Out.carries isTold) :=
        List.countP_pos_iff.2 ⟨o, ho, Out.carries_iff.2 ⟨m, hm, isTold_of_act hact ho hm⟩⟩
      rw [sent_append]
      exact Nat.lt_add_of_pos_right hpos

/-! ## Every view is reached -/

theorem exists_step {i : NodeID} (hi : i ∈ E.members) (hmove : CanMove (machine E) Toils w i) :
    ∃ w', (machine E).Step Unpooled w w' := by
  rcases hmove with ⟨a, r, ha, hr⟩ | ⟨m, r, hm, hr⟩
  · exact ⟨_, Machine.Step.act hi (a := a) (fun txs he => ha txs (Input.act.inj he))
      (Option.map_eq_some_iff.2 ⟨r, hr, rfl⟩)⟩
  · obtain ⟨k, hk⟩ := List.mem_iff_getElem?.1 hm
    exact ⟨_, Machine.Step.deliver hk (fun txs he => by cases he)
      (Option.map_eq_some_iff.2 ⟨r, hr, rfl⟩)⟩

/-- **A bare quorum stays together**: when one has left a view, all have been in it. -/
theorem reached_of_left (hbare : E.live.card = E.hightThreshold)
    (hw : (machine E).Reach Machine.anyInput w) {view : ℤ} {i : NodeID} (hi : i ∈ E.live)
    (hlt : view < (w.host i).st.view) {j : NodeID} (hj : j ∈ E.live) : view ≤ (w.host j).st.view := by
  by_cases h0 : view < 0
  · exact h0.le.trans (ordered (hw.local j)).nonneg
  have hb : (w.host i).st.booted = true := by
    by_contra hb
    have := ((ordered (hw.local i)).asleep (by simpa using hb)).2.2.1
    omega
  -- who enters the next view refers to the height-2 blocks of all
  obtain ⟨b, hprop, hview, hlayer⟩ := proposed_of_left hw hb (not_lt.1 h0) hlt
  obtain ⟨c, hc, hbefore, -⟩ := referred_of_live hw hbare hi hprop (Or.inl hview) hj
  have hkey := key_of_proposed hw hc
  rw [hbefore, hlayer] at hkey
  exact (bounds_of_key hw hkey).2.1

end DAGBigCore

/-- Without `f` of `3 * f + 1` nodes there are just enough. -/
theorem Env.card_live {E : Env D} (hn : E.n = 3 * E.tolerated + 1) (hf : E.faults = E.tolerated) :
    E.live.card = E.hightThreshold := by
  have hlive : E.live = E.lastNodes E.hightThreshold := by
    refine Finset.filter_congr fun i _ => ?_
    rw [E.hightThreshold_eq]
    omega
  rw [hlive, E.card_lastNodes]
  rw [E.hightThreshold_eq]
  omega

open DAGBigCore in
/-- **The DAG variant goes through all views** when exactly `f` of `3 * f + 1` nodes are silent from the
start, the others follow the code and no channel between them fills up. From every state that it can be in,
whatever is delivered next and whichever goroutine runs next, all nodes that run come to every view, and
there is always a step to take until then. -/
theorem every_view_reached {E : Env D} (hE : E.Honest) (hn : E.n = 3 * E.tolerated + 1)
    (hf : E.faults = E.tolerated) {w : NodeWorld D (BigJob D)}
    (hw : (DAGBigCore.machine E).Reach Machine.anyInput w) (view : ℤ) :
    Eventually ((DAGBigCore.machine E).Step Unpooled)
      (fun w => ∀ i ∈ E.live, view ≤ (w.host i).st.view) w := by
  have hbare := Env.card_live hn hf
  have hreach : ∀ w w', (DAGBigCore.machine E).Reach Machine.anyInput w →
      (DAGBigCore.machine E).Step Unpooled w w' → (DAGBigCore.machine E).Reach Machine.anyInput w' :=
    fun w w' hw hs => hw.trans (Machine.Steps.mono (fun _ _ _ _ => trivial) (.single hs))
  have hbeyond : Eventually ((DAGBigCore.machine E).Step Unpooled)
      (fun w => ∃ i ∈ E.live, view < (w.host i).st.view) w := by
    refine eventually_of_rank wellFounded_lower (DAGBigCore.rank E (labels E view).card) hreach
      (fun w hw => ?_) (fun w w' hw hs hno => ?_) hw
    · obtain ⟨i, hi, hmove⟩ := never_stops hE hbare hw
      exact exists_step (Env.mem_live.1 hi).1 hmove
    · exact lowers hw hs (hreach w w' hw hs) fun i hi => not_lt.1 fun hlt => hno ⟨i, hi, hlt⟩
  exact hbeyond.imp hreach (fun w hw ⟨i, hi, hlt⟩ j hj => reached_of_left hbare hw hi hlt hj) hw

/-- Four nodes, of which node 0 is silent and node 1 leads all views. -/
def DagRun.bareEnv : Env ℕ := { Env.plain 4 (fun _ => 1) with faults := 1 }

theorem every_view_reached_bare : DagRun.bareEnv.Honest ∧
    DagRun.bareEnv.n = 3 * DagRun.bareEnv.tolerated + 1 ∧ DagRun.bareEnv.live = {1, 2, 3} ∧
    Eventually ((DAGBigCore.machine DagRun.bareEnv).Step DAGBigCore.Unpooled)
      (fun w => ∀ i ∈ DagRun.bareEnv.live, 7 ≤ (w.host i).st.view)
      (DAGBigCore.machine DagRun.bareEnv).world :=
  ⟨Env.plain_honest 4 _ 1, by decide, by decide,
    every_view_reached (Env.plain_honest 4 _ 1) (by decide) (by decide) .refl 7⟩

end S2Pac
