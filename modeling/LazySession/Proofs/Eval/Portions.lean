import LazySession.Proofs.Eval.Tasks

/-!
# Arguments in portions

It makes no difference whether a value is applied to all arguments at once or to some of them first
and its result to the others: `Task.run_apply_append`. A round of application that is given further
arguments does what it does without them and passes them on (`Applied.round_append`).
-/

namespace LazySession

namespace Applied

/-- What a round comes to if there are further arguments behind those it was given. -/
def onto (ys : List Value) : Applied → Applied
  | done (.ok v) => give v ys
  | done (.error e) => .done (.error e)
  | enter c scope others => .enter c scope (others ++ ys)
  | again v others => .again v (others ++ ys)

theorem give_append (v : Value) (others ys : List Value) :
    give v (others ++ ys) = (give v others).onto ys := by
  cases others <;> rfl

theorem call_append (lib : HostLibrary) (pos : Pos) (f : Callable) (args others ys : List Value)
    (s : EvalState) :
    call lib pos f args (others ++ ys) s =
      ((call lib pos f args others s).1.onto ys, (call lib pos f args others s).2) := by
  cases f with
  | closure c =>
    simp only [call]
    split <;> rfl
  | builtin b =>
    simp only [call]
    split
    · rfl
    · rw [give_append]
  | host d =>
    simp only [call]
    split
    · rfl
    · rw [give_append]

/-- Either the first arguments are not enough for a call, and the value that waits for the others
goes on where the first round stopped, or the call is the same with and without the others. -/
theorem round_append (lib : HostLibrary) (pos : Pos) (fn : Value) (xs ys : List Value)
    (s : EvalState) :
    (∃ v, round lib pos fn xs s = (.done (.ok v), s) ∧
      round lib pos fn (xs ++ ys) s = round lib pos v ys s) ∨
    round lib pos fn (xs ++ ys) s =
      ((round lib pos fn xs s).1.onto ys, (round lib pos fn xs s).2) := by
  unfold round
  cases fn.callable? with
  | none => exact .inr rfl
  | some p =>
    obtain ⟨f, before⟩ := p
    simp only [← List.append_assoc]
    generalize before ++ xs = given
    by_cases hlen : given.length < f.arity
    · refine .inl ⟨.partialApp f given, by rw [if_pos hlen], ?_⟩
      simp only [Value.callable?, if_pos hlen]
    · have hall : ¬ (given ++ ys).length < f.arity := by
        rw [List.length_append]
        omega
      refine .inr ?_
      rw [if_neg hlen, if_neg hall, List.take_append_of_le_length (by omega),
        List.drop_append_of_le_length (by omega), call_append]

end Applied

namespace Task

variable (set : Setting) (depth : Nat) (pos : Pos)

/-- An application goes on as its first round says. -/
theorem run_apply (fn : Value) (args : List Value) (s : EvalState) :
    (apply pos fn args).run set depth s =
      Machine.run set (Machine.applied depth pos (Applied.round set.host pos fn args s).1 []
        (Applied.round set.host pos fn args s).2) :=
  Machine.run_of_going (Machine.next_apply ..)

/-- Applies the result of an application to further arguments; an error stays what it is. -/
def applyResult (ys : List Value) :
    Except RuntimeError Value × EvalState → Except RuntimeError Value × EvalState
  | (.ok v, s) => (apply pos v ys).run set depth s
  | (.error e, s) => (.error e, s)

variable {set depth pos}

theorem run_give (r : Except RuntimeError Value) (s : EvalState) :
    Machine.run set ⟨.give r, [], s⟩ = (r, s) := by
  cases r <;> exact Machine.run_of_finished rfl

/-- What has been given is applied at once, or after the arguments that come first. -/
theorem run_onto {ys : List Value} (hy : ys ≠ []) (a : Applied) (s : EvalState)
    (ih : ∀ v others s, (∃ c scope, a = .enter c scope others) ∨ a = .again v others →
      (apply pos v (others ++ ys)).run set depth s =
        applyResult set depth pos ys ((apply pos v others).run set depth s)) :
    Machine.run set (Machine.applied depth pos (a.onto ys) [] s) =
      applyResult set depth pos ys (Machine.run set (Machine.applied depth pos a [] s)) := by
  obtain ⟨y, ys, rfl⟩ := List.exists_cons_of_ne_nil hy
  cases a with
  | done r =>
    cases r with
    | error e => simp only [Applied.onto, Machine.applied, run_give, applyResult]
    | ok v =>
      simp only [Applied.onto, Applied.give, Machine.applied, run_give]
      rfl
  | again v others => exact ih v others s (.inr rfl)
  | enter c scope others =>
    -- the body does not see the arguments that wait behind it
    have hbody (rest : List Value) := run_start set (.eval c.body scope) depth
      [.body depth pos s.place rest] (s.enter c.source c.traceName)
    generalize (Task.eval c.body scope).run set depth (s.enter c.source c.traceName) = p at hbody
    obtain ⟨r, s'⟩ := p
    simp only [start] at hbody
    simp only [Applied.onto, Machine.applied, hbody]
    cases r with
    | error e =>
      have hleave (rest : List Value) : Machine.run set
          ⟨.give (.error e), [.body depth pos s.place rest], s'⟩ = (.error e, s'.leave s.place) :=
        (Machine.run_of_going rfl).trans (run_give _ _)
      rw [hleave, hleave]
      rfl
    | ok v =>
      have hgoes (a : Value) (as : List Value) : Machine.run set
          ⟨.give (.ok v), [.body depth pos s.place (a :: as)], s'⟩ =
            (apply pos v (a :: as)).run set depth (s'.leave s.place) :=
        Machine.run_of_going rfl
      cases others with
      | nil =>
        have hends : Machine.run set ⟨.give (.ok v), [.body depth pos s.place []], s'⟩ =
            (.ok v, s'.leave s.place) := (Machine.run_of_going rfl).trans (run_give _ _)
        rw [hends, List.nil_append, hgoes]
        rfl
      | cons a as =>
        rw [List.cons_append, hgoes, hgoes]
        exact ih v (a :: as) _ (.inl ⟨c, scope, rfl⟩)

/-- **Arguments can be given in portions.** To apply a value to two lists of arguments is to apply
it to the first and then, unless that is an error, to apply what it gave to the second: the result,
the heap and all else in the state are the same. -/
theorem run_apply_append (set : Setting) (depth : Nat) (pos : Pos) (fn : Value)
    (xs ys : List Value) (s : EvalState) (hy : ys ≠ []) :
    (apply pos fn (xs ++ ys)).run set depth s =
      match (apply pos fn xs).run set depth s with
      | (.ok v, s') => (apply pos v ys).run set depth s'
      | (.error e, s') => (.error e, s') := by
  have main : (apply pos fn (xs ++ ys)).run set depth s =
      applyResult set depth pos ys ((apply pos fn xs).run set depth s) := by
    revert fn xs s
    refine Applied.induction set.host fun fn xs ih s => ?_
    rw [run_apply set depth pos fn (xs ++ ys), run_apply set depth pos fn xs]
    obtain ⟨v, hfirst, hall⟩ | hround := Applied.round_append set.host pos fn xs ys s
    · rw [hall, hfirst]
      simp only [Machine.applied, run_give, applyResult]
      exact (run_apply ..).symm
    · rw [hround]
      refine run_onto hy _ _ fun v others s' h => ih v others ?_ s'
      rcases h with ⟨c, scope, h⟩ | h
      · exact .inl (Applied.lighter_enter h)
      · exact Applied.lighter_again h
  rw [main]
  generalize (apply pos fn xs).run set depth s = p
  obtain ⟨_ | _, _⟩ := p <;> rfl

/-- `\x y -> \z -> x + y * z` applied to one argument and then to two. -/
theorem run_apply_append_nested :
    let p : Pos := ⟨1, 1⟩
    let product : Expr := .binary p .mul (.var p "y") (.var p "z")
    let body : Expr := .lambda p (.named "z") [] (.binary p .add (.var p "x") product)
    let f : Value := .closure ⟨none, .named "x", [.named "y"], body, 0, "m"⟩
    let s : EvalState := { heap := { scopes := #[⟨[], none⟩] }, patience := .endless }
    let set : Setting := ⟨.empty, 10⟩
    [Value.int 2, .int 3] ≠ [] ∧
    ((apply p f ([.int 1] ++ [.int 2, .int 3])).run set 10 s =
      match (apply p f [.int 1]).run set 10 s with
      | (.ok v, s') => (apply p v [.int 2, .int 3]).run set 10 s'
      | (.error e, s') => (.error e, s')) ∧
    ((apply p f [.int 1, .int 2, .int 3]).run set 10 s).1.toOption.bind Value.int? = some 7 := by
  intro p product body f s set
  have hy : [Value.int 2, .int 3] ≠ [] := List.cons_ne_nil _ _
  exact ⟨hy, run_apply_append set 10 p f [.int 1] [.int 2, .int 3] s hy, by decide +kernel⟩

end Task

end LazySession
