import Mathlib.Logic.Relation
import Mathlib.Data.List.Basic
import Mathlib.Data.List.Infix

/-!
# Parent forests and logs that list parents first

A forest is a parent map `par : β → Option β`; nothing is assumed of it, cycles included.

* `Anc par a b`: `a` is `b` or is met on the way up from `b`;
* `RootPath par l b`: `l` is the path from a root down to `b`, oldest first;
* `ParentFirst par l`: every entry of `l` comes after its parent;
* `Climb par l d c`: `l` is the way up from `d` to `c`.

`rootPath_of_parentFirst` says that a repetition-free parent-first list whose entries are pairwise
comparable is the root path of one of them, and `prefix_of_comparable` that two such lists with
comparable entries are prefixes of one another.
-/

namespace S2Pac.Lib

variable {β : Type*} {par : β → Option β}

/-- `a` is `b` or an ancestor of `b`. -/
def Anc (par : β → Option β) (a b : β) : Prop :=
  Relation.ReflTransGen (fun p c => par c = some p) a b

/-- The path from a root down to a node. -/
inductive RootPath (par : β → Option β) : List β → β → Prop
  | root {b : β} : par b = none → RootPath par [b] b
  | step {l : List β} {p b : β} : par b = some p → RootPath par l p → RootPath par (l ++ [b]) b

/-- Every entry comes after its parent. -/
def ParentFirst (par : β → Option β) (l : List β) : Prop :=
  ∀ l₁ b l₂, l = l₁ ++ b :: l₂ → ∀ p, par b = some p → p ∈ l₁

/-- The way up from `d` to `c`, in the order in which it is met. -/
inductive Climb (par : β → Option β) (d : β) : List β → β → Prop
  | start : Climb par d [d] d
  | step {l : List β} {c p : β} : Climb par d l c → par c = some p → Climb par d (l ++ [p]) p

/-! ## Ancestors -/

theorem Anc.refl (b : β) : Anc par b b := Relation.ReflTransGen.refl

theorem Anc.trans {a b c : β} (h₁ : Anc par a b) (h₂ : Anc par b c) : Anc par a c :=
  Relation.ReflTransGen.trans h₁ h₂

theorem Anc.of_par {p b : β} (h : par b = some p) : Anc par p b := Relation.ReflTransGen.single h

theorem Anc.cases {a b : β} (h : Anc par a b) : a = b ∨ ∃ p, par b = some p ∧ Anc par a p := by
  rcases Relation.ReflTransGen.cases_tail h with h | ⟨p, hap, hpb⟩
  · exact Or.inl h.symm
  · exact Or.inr ⟨p, hpb, hap⟩

theorem Anc.eq_of_root {a b : β} (h : Anc par a b) (hb : par b = none) : a = b := by
  rcases h.cases with h | ⟨p, hp, -⟩
  · exact h
  · rw [hb] at hp; cases hp

theorem Anc.comparable {a b c : β} (ha : Anc par a c) (hb : Anc par b c) :
    Anc par a b ∨ Anc par b a := by
  induction ha with
  | refl => exact Or.inr hb
  | tail hap hpc ih =>
    rcases hb.cases with rfl | ⟨q, hq, hbq⟩
    · exact Or.inl (Relation.ReflTransGen.tail hap hpc)
    · rw [hpc] at hq
      cases hq
      exact ih hbq

theorem Anc.mem_of_closed {S : β → Prop} (hS : ∀ b p, S b → par b = some p → S p) {a b : β}
    (h : Anc par a b) (hb : S b) : S a := by
  induction h using Relation.ReflTransGen.head_induction_on with
  | refl => exact hb
  | head hac _ ih => exact hS _ _ ih hac

/-! ## Root paths -/

theorem RootPath.getLast?_eq {l : List β} {b : β} (h : RootPath par l b) : l.getLast? = some b := by
  cases h <;> simp

theorem RootPath.unique {l l' : List β} {b : β} (h : RootPath par l b) (h' : RootPath par l' b) :
    l = l' := by
  induction h generalizing l' with
  | root hb =>
    cases h' with
    | root _ => rfl
    | step hp _ => rw [hb] at hp; cases hp
  | step hp _ ih =>
    cases h' with
    | root hb => rw [hp] at hb; cases hb
    | step hp' h' =>
      rw [hp] at hp'
      cases hp'
      rw [ih h']

theorem RootPath.prefix_of_anc {lb : List β} {a b : β} (hb : RootPath par lb b) (h : Anc par a b) :
    ∃ la, RootPath par la a ∧ la <+: lb := by
  induction hb with
  | root hb =>
    have := h.eq_of_root hb
    subst this
    exact ⟨_, RootPath.root hb, List.prefix_refl _⟩
  | step hp hl ih =>
    rcases h.cases with rfl | ⟨q, hq, haq⟩
    · exact ⟨_, RootPath.step hp hl, List.prefix_refl _⟩
    · rw [hp] at hq
      cases hq
      obtain ⟨la, hla, hpre⟩ := ih haq
      exact ⟨la, hla, hpre.trans (List.prefix_append _ _)⟩

theorem RootPath.parent_not_anc {l : List β} {p b : β} (h : RootPath par l b) (hp : par b = some p) :
    ¬ Anc par b p := by
  intro hbp
  obtain ⟨l', hl'⟩ : ∃ l', RootPath par l' p ∧ l = l' ++ [b] := by
    cases h with
    | root hb => rw [hp] at hb; cases hb
    | step hp' h => rw [hp] at hp'; cases hp'; exact ⟨_, h, rfl⟩
  obtain ⟨lb, hlb, hpre⟩ := hl'.1.prefix_of_anc hbp
  have hlen := hpre.length_le
  rw [hlb.unique h, hl'.2, List.length_append, List.length_singleton] at hlen
  omega

theorem exists_rootPath (hwf : WellFounded fun p c => par c = some p) (b : β) :
    ∃ l, RootPath par l b := by
  induction b using hwf.induction with
  | _ b ih =>
    cases hp : par b with
    | none => exact ⟨[b], RootPath.root hp⟩
    | some p =>
      obtain ⟨l, hl⟩ := ih p hp
      exact ⟨l ++ [b], RootPath.step hp hl⟩

theorem exists_rootPath_of_rank {S : β → Prop} (rank : β → ℕ)
    (hS : ∀ b p, S b → par b = some p → S p ∧ rank p < rank b) {b : β} (hb : S b) :
    ∃ l, RootPath par l b := by
  generalize hr : rank b = r
  induction r using Nat.strong_induction_on generalizing b with
  | _ r ih =>
    cases hp : par b with
    | none => exact ⟨[b], RootPath.root hp⟩
    | some p =>
      obtain ⟨hpS, hlt⟩ := hS b p hb hp
      obtain ⟨l, hl⟩ := ih (rank p) (hr ▸ hlt) hpS rfl
      exact ⟨l ++ [b], RootPath.step hp hl⟩

/-! ## Parent-first lists -/

theorem ParentFirst.nil : ParentFirst par ([] : List β) := by
  intro l₁ b l₂ h
  simp at h

theorem ParentFirst.append_left {l l' : List β} (h : ParentFirst par (l ++ l')) :
    ParentFirst par l := by
  rintro l₁ b l₂ rfl p hp
  exact h l₁ b (l₂ ++ l') (by simp) p hp

theorem ParentFirst.snoc {l : List β} {b : β} (h : ParentFirst par l)
    (hb : ∀ p, par b = some p → p ∈ l) : ParentFirst par (l ++ [b]) := by
  intro l₁ c l₂ heq p hp
  rcases List.eq_nil_or_concat l₂ with rfl | ⟨l₂, x, rfl⟩
  · obtain ⟨rfl, hc⟩ := List.append_inj' heq rfl
    simp only [List.cons.injEq, and_true] at hc
    subst hc
    exact hb p hp
  · rw [List.concat_eq_append, ← List.cons_append, ← List.append_assoc] at heq
    obtain ⟨rfl, -⟩ := List.append_inj' heq rfl
    exact h l₁ c l₂ rfl p hp

theorem ParentFirst.closed {l : List β} (h : ParentFirst par l) {b p : β} (hb : b ∈ l)
    (hp : par b = some p) : p ∈ l := by
  obtain ⟨l₁, l₂, rfl⟩ := List.append_of_mem hb
  exact List.mem_append_left _ (h l₁ b l₂ rfl p hp)

theorem ParentFirst.anc_mem {l : List β} (h : ParentFirst par l) {a b : β} (hb : b ∈ l)
    (ha : Anc par a b) : a ∈ l :=
  Anc.mem_of_closed (S := (· ∈ l)) (fun _ _ hb hp => h.closed hb hp) ha hb

/-- A parent-first list without repetitions that holds `d`, and otherwise only ancestors of `d`, is
the root path of `d`: the last entry can only be `d`. -/
theorem ParentFirst.rootPath {l : List β} (h : ParentFirst par l) (hnd : l.Nodup) {d : β}
    (hd : d ∈ l) (hanc : ∀ x ∈ l, Anc par x d) : RootPath par l d := by
  induction l using List.reverseRecOn generalizing d with
  | nil => simp at hd
  | append_singleton l x ih =>
    have hl := h.append_left
    obtain ⟨hndl, -, hdisj⟩ := List.nodup_append.1 hnd
    have hx : x ∉ l := fun hx => hdisj x hx x (by simp) rfl
    have hxd : x = d := by
      by_contra hne
      rcases List.mem_append.1 hd with hd | hd
      · exact hx (hl.anc_mem hd (hanc x (by simp)))
      · exact hne (List.mem_singleton.1 hd).symm
    subst hxd
    cases hp : par x with
    | none =>
      have hnil : l = [] := by
        rw [List.eq_nil_iff_forall_not_mem]
        intro y hy
        have := (hanc y (List.mem_append_left _ hy)).eq_of_root hp
        exact hx (this ▸ hy)
      subst hnil
      exact RootPath.root hp
    | some p =>
      refine RootPath.step hp (ih hl hndl (h l x [] rfl p hp) fun y hy => ?_)
      rcases (hanc y (List.mem_append_left _ hy)).cases with rfl | ⟨q, hq, hyq⟩
      · exact absurd hy hx
      · rw [hp] at hq
        cases hq
        exact hyq

/-! ## Climbing and coming back -/

theorem Climb.top_mem {l : List β} {d c : β} (h : Climb par d l c) : c ∈ l := by
  cases h with
  | start => exact List.mem_singleton_self _
  | step _ _ => exact List.mem_append_right _ (List.mem_singleton_self _)

/-- What is met on the way up from `d` to `c` lies between them. -/
theorem Climb.between {l : List β} {d c : β} (h : Climb par d l c) {x : β} (hx : x ∈ l) :
    Anc par x d ∧ Anc par c x := by
  induction h generalizing x with
  | start =>
    rw [List.mem_singleton.1 hx]
    exact ⟨Anc.refl _, Anc.refl _⟩
  | step h hp ih =>
    rcases List.mem_append.1 hx with hx | hx
    · exact ⟨(ih hx).1, (Anc.of_par hp).trans (ih hx).2⟩
    · rw [List.mem_singleton.1 hx]
      exact ⟨(Anc.of_par hp).trans (ih h.top_mem).1, Anc.refl _⟩

theorem Climb.nodup {l : List β} {d c : β} (h : Climb par d l c) {r : List β}
    (hr : RootPath par r d) : l.Nodup := by
  induction h with
  | start => simp
  | step h hp ih =>
    refine List.nodup_append.2 ⟨ih, by simp, ?_⟩
    rintro x hx y hy rfl
    rw [List.mem_singleton] at hy
    subst hy
    obtain ⟨rc, hrc, -⟩ := hr.prefix_of_anc (h.between h.top_mem).1
    exact hrc.parent_not_anc hp (h.between hx).2

/-- A parent-first list, continued by the way back down from a node whose parent it holds. -/
theorem ParentFirst.append_reverse {l q : List β} {d c : β} (h : ParentFirst par l)
    (hq : Climb par d q c) (hc : ∀ p, par c = some p → p ∈ l) : ParentFirst par (l ++ q.reverse) := by
  induction hq generalizing l with
  | start => exact h.snoc hc
  | step hq hp ih =>
    rw [List.reverse_append, List.reverse_singleton, List.singleton_append,
      List.append_cons]
    refine ih (h.snoc hc) fun p' hp' => ?_
    rw [hp] at hp'
    cases hp'
    exact List.mem_append_right _ (List.mem_singleton_self _)

theorem exists_lowest {l : List β} (hne : l ≠ [])
    (hcmp : ∀ x ∈ l, ∀ y ∈ l, Anc par x y ∨ Anc par y x) : ∃ d ∈ l, ∀ x ∈ l, Anc par x d := by
  induction l with
  | nil => exact absurd rfl hne
  | cons a l ih =>
    rcases eq_or_ne l [] with rfl | hl
    · exact ⟨a, by simp, fun x hx => by rw [List.mem_singleton.1 hx]; exact Anc.refl a⟩
    · obtain ⟨d, hd, hmax⟩ := ih hl fun x hx y hy =>
        hcmp x (List.mem_cons_of_mem _ hx) y (List.mem_cons_of_mem _ hy)
      rcases hcmp a (by simp) d (List.mem_cons_of_mem _ hd) with h | h
      · refine ⟨d, List.mem_cons_of_mem _ hd, fun x hx => ?_⟩
        rcases List.mem_cons.1 hx with rfl | hx
        · exact h
        · exact hmax x hx
      · refine ⟨a, by simp, fun x hx => ?_⟩
        rcases List.mem_cons.1 hx with rfl | hx
        · exact Anc.refl _
        · exact (hmax x hx).trans h

/-- **A log of pairwise comparable nodes is a root path.** -/
theorem rootPath_of_parentFirst {l : List β} (h : ParentFirst par l) (hnd : l.Nodup) (hne : l ≠ [])
    (hcmp : ∀ x ∈ l, ∀ y ∈ l, Anc par x y ∨ Anc par y x) : ∃ d ∈ l, RootPath par l d := by
  obtain ⟨d, hd, hmax⟩ := exists_lowest hne hcmp
  exact ⟨d, hd, h.rootPath hnd hd hmax⟩

/-- **Two logs with comparable entries are prefix-compatible.** -/
theorem prefix_of_comparable {l l' : List β} (h : ParentFirst par l) (h' : ParentFirst par l')
    (hnd : l.Nodup) (hnd' : l'.Nodup)
    (hcmp : ∀ x ∈ l ++ l', ∀ y ∈ l ++ l', Anc par x y ∨ Anc par y x) : l <+: l' ∨ l' <+: l := by
  rcases eq_or_ne l [] with rfl | hl
  · exact Or.inl (List.nil_prefix)
  rcases eq_or_ne l' [] with rfl | hl'
  · exact Or.inr (List.nil_prefix)
  obtain ⟨d, hd, hpath⟩ := rootPath_of_parentFirst h hnd hl fun x hx y hy =>
    hcmp x (List.mem_append_left _ hx) y (List.mem_append_left _ hy)
  obtain ⟨d', hd', hpath'⟩ := rootPath_of_parentFirst h' hnd' hl' fun x hx y hy =>
    hcmp x (List.mem_append_right _ hx) y (List.mem_append_right _ hy)
  rcases hcmp d (List.mem_append_left _ hd) d' (List.mem_append_right _ hd') with h | h
  · obtain ⟨l₀, hl₀, hpre⟩ := hpath'.prefix_of_anc h
    exact Or.inl (hl₀.unique hpath ▸ hpre)
  · obtain ⟨l₀, hl₀, hpre⟩ := hpath.prefix_of_anc h
    exact Or.inr (hl₀.unique hpath' ▸ hpre)

end S2Pac.Lib
