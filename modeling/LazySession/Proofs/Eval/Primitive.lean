import LazySession.Eval.Primitive

/-!
# What builtin and host functions can give
-/

namespace LazySession

namespace RuntimeFault

/-- A name was not found. -/
def isUndefined : RuntimeFault → Bool
  | undefined _ => true
  | _ => false

/-- Something that an operator or a function can find wrong with its operands. -/
def isPrimitive : RuntimeFault → Bool
  | undefined _ | overflow _ | interrupted | loop _ | wrongType .. => false
  | _ => true

theorem isUndefined_of_isPrimitive {f : RuntimeFault} (h : f.isPrimitive) :
    f.isUndefined = false := by
  cases f with
  | undefined name => cases h
  | _ => rfl

end RuntimeFault

namespace Value

/-- Integers, truth values, texts and `()`. -/
def isPlain : Value → Bool
  | int _ | bool _ | str _ | unit => true
  | _ => false

end Value

namespace Operator

theorem isPlain_eval {op : Operator} {l r v : Value} (h : op.eval l r = .ok v) : v.isPlain := by
  unfold eval at h
  split at h
  all_goals first
    | (split at h <;> first | contradiction | (cases h; rfl) | skip)
    | contradiction
  all_goals
    generalize arithmetic _ _ _ = a at h
    cases a <;> cases h
    rfl

theorem fault_arithmetic {op : Operator} {a b : Int64} {f : RuntimeFault}
    (h : op.arithmetic a b = .error f) : f = .divisionByZero := by
  unfold arithmetic at h
  split at h
  all_goals first
    | contradiction
    | (split at h <;> cases h; rfl)

theorem fault_eval {op : Operator} {l r : Value} {f : RuntimeFault} (h : op.eval l r = .error f) :
    f.isPrimitive := by
  unfold eval at h
  split at h
  all_goals first
    | (split at h <;> first | contradiction | (cases h; rfl) | skip)
    | (cases h; rfl)
  all_goals
    rename_i a b _ _
    generalize ha : arithmetic _ a b = p at h
    cases p <;> cases h
    rw [fault_arithmetic ha]
    rfl

theorem fault_shortcut {op : Operator} {l : Value} {f : RuntimeFault}
    (h : op.shortcut l = .error f) : f.isPrimitive := by
  unfold shortcut at h
  split at h <;> cases h
  rfl

end Operator

namespace Builtin

/-- A builtin function makes a cell, reads one, or gives a plain value. -/
theorem call_cases {h h' : Heap} {b : Builtin} {args : List Value} {v : Value}
    (hc : b.call h args = .ok (v, h')) :
    (∃ a, b = .newRef ∧ args = [a] ∧ v = .cell h.cells.size ∧ h' = (h.newCell (some a)).2) ∨
    (∃ id, b = .readRef ∧ args = [.cell id] ∧ h.getCell? id = some v ∧ h' = h) ∨
    (v.isPlain ∧ h' = h) := by
  unfold call at hc
  split at hc
  case h_1 a => cases hc; exact .inl ⟨a, rfl, rfl, rfl, rfl⟩
  case h_2 a =>
    split at hc
    · rename_i id
      split at hc
      · rename_i v hv
        cases hc
        exact .inr (.inl ⟨id, rfl, rfl, hv, rfl⟩)
      · cases hc
    · cases hc
  case h_3 => cases hc; exact .inr (.inr ⟨rfl, rfl⟩)
  case h_6 x y | h_7 x y =>
    generalize divisionArgs _ x y = p at hc
    rcases p with _ | ⟨m, n⟩ <;> cases hc
    exact .inr (.inr ⟨rfl, rfl⟩)
  case h_9 => cases hc
  case h_10 => cases hc; exact .inr (.inr ⟨rfl, rfl⟩)
  all_goals
    split at hc <;> cases hc
    exact .inr (.inr ⟨rfl, rfl⟩)

theorem fault_divisionArgs {b : Builtin} {x y : Value} {f : RuntimeFault}
    (h : b.divisionArgs x y = .error f) : f.isPrimitive := by
  unfold divisionArgs at h
  split at h
  · cases h; rfl
  · cases h; rfl
  · split at h <;> cases h
    rfl

theorem fault_call {h : Heap} {b : Builtin} {args : List Value} {f : RuntimeFault}
    (hc : b.call h args = .error f) : f.isPrimitive := by
  unfold call at hc
  split at hc
  case h_2 a =>
    split at hc
    · split at hc <;> cases hc
      rfl
    · cases hc; rfl
  case h_6 x y | h_7 x y =>
    generalize hp : divisionArgs _ x y = p at hc
    cases p <;> cases hc
    exact fault_divisionArgs hp
  case h_9 => cases hc; rfl
  case h_1 | h_3 | h_10 => cases hc
  all_goals
    split at hc <;> cases hc
    rfl

end Builtin

namespace HostData

/-- A host function gives nothing or what the library gives. -/
theorem call_cases {lib : HostLibrary} {h : Heap} {d : HostData} {args : List Value} {v : Value}
    (hc : d.call lib h args = .ok v) :
    v = .unit ∨ ∃ ps name held vs r, arguments h 1 args ps = .ok vs ∧
      lib.call name held vs = .ok [r] ∧ v = r.toValue := by
  unfold call at hc
  split at hc
  · rename_i ps variadic rs name held _ _
    split at hc
    · cases hc
    · split at hc
      · cases hc
      · rename_i vs hvs
        split at hc
        · cases hc
        · cases hc; exact .inl rfl
        · rename_i r hr
          cases hc
          exact .inr ⟨ps, name, held, vs, r, hvs, hr, rfl⟩
        · cases hc
  · cases hc

theorem object_of_argument? {h : Heap} {v u : Value} {t : HostType}
    (ha : argument? h v t = some (.object u)) : h.toHost v = .object u := by
  unfold argument? at ha
  split at ha
  · unfold HostValue.zero at ha
    split at ha <;> cases ha
  · rename_i hv
    split at ha <;> cases ha
    exact hv
  · split at ha
    · cases ha
    · split at ha <;> cases ha

theorem fault_arguments {h : Heap} {f : RuntimeFault} (vs : List Value) :
    ∀ {number : Nat} {ts : List HostType}, arguments h number vs ts = .error f →
      f.isPrimitive := by
  induction vs with
  | nil => intro _ _ ha; cases ha
  | cons v vs ih =>
    intro number ts ha
    cases ts with
    | nil => cases ha
    | cons t ts =>
      simp only [arguments] at ha
      split at ha
      · generalize hp : arguments h (number + 1) vs ts = p at ha
        cases p <;> cases ha
        exact ih hp
      · cases ha; rfl

theorem fault_call {lib : HostLibrary} {h : Heap} {d : HostData} {args : List Value}
    {f : RuntimeFault} {cause : Option Cause} (hc : d.call lib h args = .error (f, cause)) :
    f.isPrimitive := by
  unfold call at hc
  split at hc
  · split at hc
    · cases hc; rfl
    · split at hc
      · rename_i ha
        cases hc
        exact fault_arguments _ ha
      · split at hc <;> cases hc <;> rfl
  · cases hc; rfl

theorem mem_arguments {h : Heap} {u : Value} (vs : List Value) :
    ∀ {number : Nat} {ts : List HostType} {as : List HostValue},
      arguments h number vs ts = .ok as → .object u ∈ as → ∃ v ∈ vs, h.toHost v = .object u := by
  induction vs with
  | nil => intro _ _ _ ha hu; cases ha; cases hu
  | cons v vs ih =>
    intro number ts as ha hu
    cases ts with
    | nil => cases ha; cases hu
    | cons t ts =>
      simp only [arguments] at ha
      split at ha
      · rename_i a hv
        generalize hp : arguments h (number + 1) vs ts = p at ha
        cases p with
        | error f => cases ha
        | ok bs =>
          cases ha
          rcases List.mem_cons.mp hu with rfl | hu
          · exact ⟨v, List.mem_cons_self, object_of_argument? hv⟩
          · obtain ⟨v', hm, hv'⟩ := ih hp hu
            exact ⟨v', List.mem_cons_of_mem _ hm, hv'⟩
      · cases ha

end HostData

end LazySession
