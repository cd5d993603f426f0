import LazySession.Lang.Tree

/-!
# Operators and operands in trees

A row of operands with operators between them can be put together in many ways. The levels of the
operators, and the side to which they associate, leave at most one: `Grouping.eq_of_reading`. They
leave none if two comparisons have only operators that bind tighter between them:
`Grouping.Grouped.unchained`.
-/

namespace LazySession

namespace Operator

def isComparison : Operator → Bool
  | eq | ne | lt | le | gt | ge => true
  | _ => false

theorem associativity_eq_none {op : Operator} : op.associativity = .none ↔ op.isComparison = true := by
  cases op <;> decide

theorem associativity_of_level {a b : Operator} (h : a.level = b.level) :
    a.associativity = b.associativity := by
  cases a <;> cases b <;> first | rfl | cases h

theorem level_of_isComparison {op : Operator} (h : op.isComparison = true) : op.level = 4 := by
  cases op <;> first | rfl | cases h

/-- On the given side of an operator there may be another one: it binds tighter, or just as tight if
operators of this level associate to that side. -/
def Allows (side : Associativity) (op inner : Operator) : Prop :=
  op.level < inner.level ∨ inner.level = op.level ∧ op.associativity = side

variable {side : Associativity} {op inner other : Operator}

theorem Allows.le (h : op.Allows side inner) : op.level ≤ inner.level := by
  rcases h with h | h
  · exact Nat.le_of_lt h
  · exact Nat.le_of_eq h.1.symm

theorem Allows.mono (h : op.Allows side inner) (hle : inner.level ≤ other.level) :
    op.Allows side other := by
  rcases h with h | ⟨h, hs⟩
  · exact .inl (Nat.lt_of_lt_of_le h hle)
  · by_cases he : other.level = op.level
    · exact .inr ⟨he, hs⟩
    · left
      omega

theorem Allows.not_comparison (h : op.Allows side inner) (hs : side ≠ .none)
    (hop : op.isComparison = true) : inner.isComparison = false := by
  refine Bool.eq_false_iff.mpr fun hi => ?_
  rcases h with h | h
  · rw [level_of_isComparison hop, level_of_isComparison hi] at h
    exact Nat.lt_irrefl _ h
  · exact hs (h.2.symm.trans (associativity_eq_none.mpr hop))

theorem allows_right {o : Operator} (h : op.rightLevel ≤ o.level) : op.Allows .right o := by
  unfold rightLevel at h
  cases hop : op.associativity with
  | right =>
    rw [hop] at h
    rcases Nat.lt_or_eq_of_le h with h | h
    · exact .inl h
    · exact .inr ⟨h.symm, hop⟩
  | left | none =>
    rw [hop] at h
    exact .inl h

theorem allows_left {o : Operator} (h : o.level < op.rightLevel)
    (hc : op.isComparison = true → o.level ≠ op.level) : o.Allows .left op := by
  unfold rightLevel at h
  cases hop : op.associativity with
  | right =>
    rw [hop] at h
    exact .inl h
  | left =>
    rw [hop] at h
    rcases Nat.lt_or_eq_of_le (Nat.le_of_lt_succ h) with h | h
    · exact .inl h
    · exact .inr ⟨h.symm, (associativity_of_level h).trans hop⟩
  | none =>
    rw [hop] at h
    have hne := hc (associativity_eq_none.mp hop)
    exact .inl (Nat.lt_of_le_of_ne (Nat.le_of_lt_succ h) hne)

theorem level_le_rightLevel (op : Operator) : op.level ≤ op.rightLevel := by
  unfold rightLevel
  split <;> omega

end Operator

theorem cuts {α : Type} {as bs cs ds : List α} {x y : α} (h : as ++ x :: bs = cs ++ y :: ds) :
    (as = cs ∧ x = y ∧ bs = ds) ∨ (∃ ms, cs = as ++ x :: ms ∧ bs = ms ++ y :: ds) ∨
      ∃ ms, as = cs ++ y :: ms ∧ ds = ms ++ x :: bs := by
  obtain ⟨ms, hc, hx⟩ | ⟨ms, ha, hy⟩ := List.append_eq_append_iff.mp h
  · cases ms with
    | nil =>
      obtain ⟨rfl, rfl⟩ := List.cons.inj hx
      exact .inl ⟨by simpa using hc.symm, rfl, rfl⟩
    | cons m ms =>
      obtain ⟨rfl, hb⟩ := List.cons.inj hx
      exact .inr (.inl ⟨ms, hc, hb⟩)
  · cases ms with
    | nil =>
      obtain ⟨rfl, rfl⟩ := List.cons.inj hy
      exact .inl ⟨by simpa using ha, rfl, rfl⟩
    | cons m ms =>
      obtain ⟨rfl, hd⟩ := List.cons.inj hy
      exact .inr (.inr ⟨ms, ha, hd⟩)

/-- An operator, where it stands, and the operand behind it. -/
structure Link where
  pos : Pos
  op : Operator
  operand : Expr

/-- A tree of operators over operands. -/
inductive Grouping
  | operand (e : Expr)
  | node (pos : Pos) (op : Operator) (left right : Grouping)

namespace Grouping

def expr : Grouping → Expr
  | operand e => e
  | node pos op l r => .binary pos op l.expr r.expr

/-- The operand that comes first when the tree is read from left to right. -/
def first : Grouping → Expr
  | operand e => e
  | node _ _ l _ => l.first

/-- What comes behind the first operand. -/
def links : Grouping → List Link
  | operand _ => []
  | node pos op l r => l.links ++ ⟨pos, op, r.first⟩ :: r.links

def root? : Grouping → Option Operator
  | operand _ => none
  | node _ op _ _ => some op

/-- Every operator allows those right below it. -/
def Grouped : Grouping → Prop
  | operand _ => True
  | node _ op l r => l.Grouped ∧ r.Grouped ∧
    (∀ o ∈ l.root?, op.Allows .left o) ∧ ∀ o ∈ r.root?, op.Allows .right o

variable {t t' l r l' r' : Grouping} {pos pos' : Pos} {op op' : Operator} {x : Link}

theorem exists_root (h : x ∈ t.links) : ∃ o, o ∈ t.root? := by
  cases t with
  | operand e => cases h
  | node pos op l r => exact ⟨op, rfl⟩

theorem exists_link {o : Operator} (h : o ∈ t.root?) : ∃ x ∈ t.links, x.op = o := by
  cases t with
  | operand e => cases h
  | node pos op l r =>
    cases h
    exact ⟨⟨pos, o, r.first⟩, by simp [links], rfl⟩

namespace Grouped

theorem level_le (h : t.Grouped) : ∀ o ∈ t.root?, ∀ x ∈ t.links, o.level ≤ x.op.level := by
  induction t with
  | operand e =>
    intro o ho
    cases ho
  | node pos op l r ihl ihr =>
    obtain ⟨hl, hr, hleft, hright⟩ := h
    intro o ho x hx
    cases ho
    rcases List.mem_append.mp hx with hx | hx
    · obtain ⟨o, ho⟩ := exists_root hx
      exact Nat.le_trans (hleft o ho).le (ihl hl o ho x hx)
    · rcases List.mem_cons.mp hx with rfl | hx
      · exact Nat.le_refl _
      · obtain ⟨o, ho⟩ := exists_root hx
        exact Nat.le_trans (hright o ho).le (ihr hr o ho x hx)

theorem allows (h : t.Grouped) {side : Associativity} (ho : ∀ o ∈ t.root?, op.Allows side o) :
    ∀ x ∈ t.links, op.Allows side x.op := by
  intro x hx
  obtain ⟨o, hroot⟩ := exists_root hx
  exact (ho o hroot).mono (h.level_le o hroot x hx)

theorem not_crossed (h : (node pos op l r).Grouped) (h' : (node pos' op' l' r').Grouped)
    {y : Link} (hx : x ∈ l'.links) (hop : x.op = op) (hy : y ∈ r.links) (hop' : y.op = op') :
    False := by
  subst hop hop'
  have hleft := h'.1.allows h'.2.2.1 x hx
  have hright := h.2.1.allows h.2.2.2 y hy
  rcases hleft with hlt | ⟨he, hl⟩
  · exact Nat.not_le_of_lt hlt hright.le
  · rcases hright with hlt | ⟨-, hr⟩
    · omega
    · rw [Operator.associativity_of_level he] at hr
      rw [hl] at hr
      cases hr

end Grouped

theorem eq_of_reading (h : t.Grouped) (h' : t'.Grouped) (hfirst : t.first = t'.first)
    (hlinks : t.links = t'.links) : t = t' := by
  induction t generalizing t' with
  | operand e =>
    cases t' with
    | operand e' => exact congrArg operand hfirst
    | node pos' op' l' r' => simp [links] at hlinks
  | node pos op l r ihl ihr =>
    cases t' with
    | operand e' => simp [links] at hlinks
    | node pos' op' l' r' =>
      -- both roots stand at the same place, or each is below the other
      obtain ⟨hl, hx, hr⟩ | ⟨ms, hl, hr⟩ | ⟨ms, hl, hr⟩ := cuts hlinks
      · obtain ⟨rfl, rfl, hr'⟩ := Link.mk.inj hx
        rw [ihl h.1 h'.1 hfirst hl, ihr h.2.1 h'.2.1 hr' hr]
      · have hx : ⟨pos, op, r.first⟩ ∈ l'.links := by simp [hl]
        have hy : ⟨pos', op', r'.first⟩ ∈ r.links := by simp [hr]
        exact (h.not_crossed h' hx rfl hy rfl).elim
      · have hx : ⟨pos', op', r'.first⟩ ∈ l.links := by simp [hl]
        have hy : ⟨pos, op, r.first⟩ ∈ r'.links := by simp [hr]
        exact (h'.not_crossed h hx rfl hy rfl).elim

end Grouping

/-! ## Comparisons -/

/-- No two comparisons have only operators between them that bind tighter. -/
def Operator.Unchained (ops : List Operator) : Prop :=
  ∀ before a between b after, ops = before ++ a :: (between ++ b :: after) →
    a.isComparison = true → b.isComparison = true → ∃ m ∈ between, m.level ≤ a.level

open Operator (Unchained)

theorem Operator.Unchained.right {ops ops' : List Operator} (h : Unchained (ops ++ ops')) :
    Unchained ops' := by
  rintro before a between b after rfl ha hb
  exact h (ops ++ before) a between b after (by simp) ha hb

theorem Operator.not_unchained {op op' : Operator} {taken : List Link} {others : List Operator}
    (hop : op.isComparison = true) (hl : op'.level = op.level)
    (hle : ∀ l ∈ taken, op.rightLevel ≤ l.op.level) :
    ¬ Unchained (op :: (taken.map (·.op) ++ op' :: others)) := by
  intro h
  have hnone := Operator.associativity_eq_none.mpr hop
  have hop' : op'.isComparison = true := by
    rw [← Operator.associativity_eq_none, Operator.associativity_of_level hl, hnone]
  obtain ⟨m, hm, hmle⟩ := h [] op _ op' others rfl hop hop'
  obtain ⟨l, hmem, rfl⟩ := List.mem_map.mp hm
  have hlt := hle l hmem
  rw [Operator.rightLevel, hnone] at hlt
  exact Nat.not_le_of_lt hlt hmle

theorem Grouping.Grouped.unchained {t : Grouping} (h : t.Grouped) :
    Unchained (t.links.map (·.op)) := by
  induction t with
  | operand e =>
    intro before a between b after heq
    simp [links] at heq
  | node pos op l r ihl ihr =>
    obtain ⟨hl, hr, hleft, hright⟩ := h
    have hL : ∀ o ∈ l.links.map (·.op), op.Allows .left o := by
      simpa using hl.allows hleft
    have hR : ∀ o ∈ r.links.map (·.op), op.Allows .right o := by
      simpa using hr.allows hright
    intro before a between b after heq ha hb
    simp only [links, List.map_append, List.map_cons] at heq
    generalize l.links.map (·.op) = L at *
    generalize r.links.map (·.op) = R at *
    have hnotL : op.isComparison = true → a ∉ L := fun hop hm => by
      simp [(hL a hm).not_comparison (by decide) hop] at ha
    have hnotR : op.isComparison = true → b ∉ R := fun hop hm => by
      simp [(hR b hm).not_comparison (by decide) hop] at hb
    -- the two stand on one side of the root, or one of them is the root, or it is between them
    obtain ⟨rfl, rfl, rfl⟩ | ⟨ms, rfl, hR'⟩ | ⟨ms, rfl, hrest⟩ := cuts heq
    · exact absurd (by simp) (hnotR ha)
    · exact ihr hr ms a between b after hR' ha hb
    · obtain ⟨rfl, rfl, rfl⟩ | ⟨ks, rfl, -⟩ | ⟨ks, rfl, -⟩ := cuts hrest
      · exact absurd (by simp) (hnotL hb)
      · exact ihl hl before a between b ks (by simp) ha hb
      · exact ⟨op, by simp, (hL a (by simp)).le⟩

end LazySession
