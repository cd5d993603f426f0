import LazySession.Proofs.Eval.Primitive
import LazySession.Host.Sample

/-!
# Integers between the language and the host

The language has one kind of integers, the host has eleven. A number that both kinds have stays the same
number when it crosses: what the language makes of an integer of the host, and what a host function
receives for an integer of the language, is that integer. Where an integer is expected, `()` stands for
zero and everything else makes the call fail (`HostData.integers_cross`).
-/

namespace LazySession

/-! ## The numbers of a kind -/

namespace IntKind

/-- The kind has this number. -/
def Holds (k : IntKind) (n : Int) : Prop :=
  if k.signed then -k.size ≤ 2 * n ∧ 2 * n < k.size else 0 ≤ n ∧ n < k.size

instance (k : IntKind) (n : Int) : Decidable (k.Holds n) :=
  inferInstanceAs (Decidable (if k.signed then -k.size ≤ 2 * n ∧ 2 * n < k.size
    else 0 ≤ n ∧ n < k.size))

/-- `m` is the number of the kind that agrees with `n` in its lowest bits. -/
structure Receives (k : IntKind) (n m : Int) : Prop where
  holds : k.Holds m
  agrees : (k.size : Int) ∣ n - m

theorem holds_wrap (k : IntKind) (n : Int) : k.Holds (k.wrap n) := by
  have hpos : 0 < k.size := by cases k <;> decide
  unfold Holds wrap
  split
  · have := Int.le_bmod (x := n) hpos
    have := Int.bmod_lt (x := n) hpos
    omega
  · exact ⟨Int.emod_nonneg _ (by omega), Int.emod_lt_of_pos _ (by omega)⟩

theorem receives_wrap (k : IntKind) (n : Int) : k.Receives n (k.wrap n) where
  holds := k.holds_wrap n
  agrees := by
    unfold wrap
    split
    · exact Int.dvd_self_sub_bmod
    · exact Int.dvd_self_sub_emod

theorem Receives.eq_of_holds {k : IntKind} {n m : Int} (h : k.Receives n m) (hn : k.Holds n) : m = n := by
  have hm := h.holds
  have hlt : (n - m).natAbs < (k.size : Int).natAbs := by
    unfold Holds at hn hm
    split at hn <;> simp_all only [if_true, if_false, Bool.false_eq_true] <;> omega
  have := Int.eq_zero_of_dvd_of_natAbs_lt_natAbs h.agrees hlt
  omega

end IntKind

namespace HostType

theorem base_of_intKind? {t : HostType} {k : IntKind} (h : t.intKind? = some k) : t.base = .int k := by
  fun_induction intKind? t with
  | case1 =>
    obtain rfl := Option.some.inj h
    rfl
  | case2 name t ih => exact ih h
  | case3 => cases h

theorem zero_of_intKind? {t : HostType} {k : IntKind} (h : t.intKind? = some k) :
    Content.zero t = .int 0 := by
  fun_induction intKind? t with
  | case1 => rfl
  | case2 name t ih => exact ih h
  | case3 => cases h

theorem hasName_of_intKind? {t : HostType} {k : IntKind} (h : t.intKind? = some k) : t.hasName = true := by
  cases t <;> first | rfl | cases h

theorem same_int_of_hasName {s : HostType} (h : s.hasName = false) (k : IntKind) :
    s.base.same (.int k) = false := by
  have hhead : ∀ {a b : String}, a.toList.head? ≠ b.toList.head? → (a == b) = false := by
    intro a b hne
    simpa using fun he : a = b => hne (he ▸ rfl)
  unfold same
  cases s with
  | record | slice | pointer | func =>
    refine hhead ?_
    cases k <;> simp [base, text, IntKind.text]
  | any => cases k <;> decide
  | _ => cases h

theorem assignable_of_intKind? {t : HostType} {k : IntKind} (h : t.intKind? = some k) (s : HostType) :
    s.assignable t = s.same t := by
  unfold assignable
  rw [base_of_intKind? h, hasName_of_intKind? h, Bool.and_true]
  cases hs : s.hasName with
  | true => simp
  | false => simp [same_int_of_hasName hs k]

theorem isInterface_of_intKind? {t : HostType} {k : IntKind} (h : t.intKind? = some k) :
    t.isInterface = false := by
  unfold isInterface
  rw [base_of_intKind? h]

end HostType

/-! ## The integer of a value -/

namespace HostData

/-- The whole number that a datum is. -/
def integer? (d : HostData) : Option Int :=
  match d.content with
  | .int n => some n
  | _ => none

theorem int?_eq_map (d : HostData) : d.int? = d.integer?.map Int64.ofInt := by
  unfold int? integer?
  cases d.content <;> rfl

end HostData

namespace HostValue

def integer? : HostValue → Option Int
  | data d => d.integer?
  | _ => none

def type? : HostValue → Option HostType
  | nil => none
  | data d => some d.type
  | object v => some v.objectType

/-- What the host's types guarantee of a value that is passed where type `t` is expected: of an integer
type it is an integer of that kind, and types of one name are one type. -/
structure Sound (a : HostValue) (t : HostType) : Prop where
  holds : ∀ d k, a = data d → d.type.intKind? = some k → ∃ n, d.content = .int n ∧ k.Holds n
  named : ∀ s, a.type? = some s → s.same t → s = t

/-- `m` is what a host function receives for a value where it takes an integer of kind `k`. -/
inductive Arrives (k : IntKind) : HostValue → Int → Prop
  | nothing : Arrives k .nil 0
  | number {v : HostValue} {n m : Int} (hn : v.integer? = some n) (hm : k.Receives n m) : Arrives k v m

theorem Arrives.eq_of_holds {k : IntKind} {v : HostValue} {n m : Int} (h : Arrives k v m)
    (hn : v.integer? = some n) (hk : k.Holds n) : m = n := by
  cases h with
  | nothing => cases hn
  | number hn' hm =>
    obtain rfl := Option.some.inj (hn.symm.trans hn')
    exact hm.eq_of_holds hk

end HostValue

namespace Value

/-- The whole number that a value is, be it an integer of the language or of the host. -/
def integer? (v : Value) : Option Int := (HostValue.ofValue v).integer?

theorem int?_eq_map (v : Value) : v.int? = v.integer?.map Int64.ofInt := by
  cases v with
  | int i => simp [int?, integer?, HostValue.ofValue, HostValue.integer?, HostData.integer?,
      HostData.ofInt64]
  | host d => exact d.int?_eq_map
  | _ => rfl

theorem int?_of_integer? {v : Value} {n : Int} (h : v.integer? = some n) :
    ∃ i, v.int? = some i ∧ IntKind.int64.Receives n i.toInt := by
  refine ⟨Int64.ofInt n, by rw [int?_eq_map, h, Option.map_some], ?_⟩
  rw [Int64.toInt_ofInt]
  exact IntKind.int64.receives_wrap n

end Value

/-! ## Calls -/

namespace HostData

variable {h : Heap} {lib : HostLibrary}

/-- Where an integer is taken, integers and `()` are received as such, and nothing else is. -/
theorem argument?_of_intKind? {v : Value} {t : HostType} {k : IntKind} (ht : t.intKind? = some k)
    (hs : (h.toHost v).Sound t) :
    (∃ m, argument? h v t = some (.data ⟨t, .int m⟩) ∧ (h.toHost v).Arrives k m) ∨
    (argument? h v t = none ∧ (h.toHost v).integer? = none ∧ h.toHost v ≠ .nil) := by
  have hinterface := HostType.isInterface_of_intKind? ht
  unfold argument?
  simp only [HostType.assignable_of_intKind? ht]
  cases hv : h.toHost v with
  | nil => exact .inl ⟨0, by simp [HostValue.zero, hinterface, HostType.zero_of_intKind? ht], .nothing⟩
  | object u =>
    refine .inr ⟨if_neg fun hsame => ?_, rfl, by simp⟩
    obtain rfl := hs.named u.objectType (by rw [hv]; rfl) hsame
    cases ht
  | data e =>
    obtain ⟨type, content⟩ := e
    by_cases hsame : type.same t
    · obtain rfl := hs.named type (by rw [hv]; rfl) hsame
      obtain ⟨n, rfl, hn⟩ := hs.holds _ k hv ht
      refine .inl ⟨n, ?_, .number rfl ⟨hn, by simp⟩⟩
      simp [hsame, stored, hinterface]
    · cases content with
      | int n => exact .inl ⟨k.wrap n, by simp [hsame, ht], .number rfl (k.receives_wrap n)⟩
      | _ => exact .inr ⟨by simp [hsame], rfl, by simp⟩

theorem argument?_of_isInterface {v : Value} {t : HostType} {a : HostValue} (ht : t.isInterface)
    (ha : argument? h v t = some a) : a = h.toHost v := by
  have hint : t.intKind? = none := by
    cases hk : t.intKind? with
    | none => rfl
    | some k => rw [HostType.isInterface_of_intKind? hk] at ht; cases ht
  unfold argument? at ha
  rw [hint] at ha
  cases hv : h.toHost v with
  | nil => simpa [hv, HostValue.zero, ht, eq_comm] using ha
  | object u =>
    simp only [hv] at ha
    split at ha <;> cases ha
    rfl
  | data e =>
    simp only [hv, stored, ht, if_true] at ha
    split at ha
    · cases ha
      rfl
    · split at ha <;> simp_all

/-- Either every argument can be passed where its parameter is, or the call fails with the number and
the type of one that cannot. -/
theorem arguments_cases (vs : List Value) : ∀ (number : Nat) {ts : List HostType},
    vs.length = ts.length →
    (∃ as, arguments h number vs ts = .ok as ∧
      ∀ (i : Nat) (v : Value) (t : HostType), vs[i]? = some v → ts[i]? = some t →
        ∃ a, as[i]? = some a ∧ argument? h v t = some a) ∨
    ∃ (i : Nat) (v : Value) (t : HostType), vs[i]? = some v ∧ ts[i]? = some t ∧ argument? h v t = none ∧
      arguments h number vs ts = .error (.hostArg (number + i) v.typeName t.text) := by
  induction vs with
  | nil =>
    intro number ts hlen
    cases ts with
    | nil => exact .inl ⟨[], rfl, fun i v t hv => by simp at hv⟩
    | cons t ts => cases hlen
  | cons v vs ih =>
    intro number ts hlen
    cases ts with
    | nil => cases hlen
    | cons t ts =>
      simp only [arguments]
      cases ha : argument? h v t with
      | none => exact .inr ⟨0, v, t, rfl, rfl, ha, rfl⟩
      | some a =>
        obtain ⟨as, has, hmap⟩ | ⟨i, u, t', hu, ht', hnone, herr⟩ :=
          ih (number + 1) (Nat.succ.inj hlen)
        · refine .inl ⟨a :: as, by rw [has]; rfl, fun i u t' hu ht' => ?_⟩
          cases i with
          | zero =>
            cases hu
            cases ht'
            exact ⟨a, rfl, ha⟩
          | succ i => exact hmap i u t' hu ht'
        · refine .inr ⟨i + 1, u, t', hu, ht', hnone, ?_⟩
          rw [herr, Nat.add_right_comm]
          rfl

/-- What becomes of the answer of a host function. -/
def answer (d : HostData) :
    Except String (List HostValue) → Except (RuntimeFault × Option Cause) Value
  | .error text => .error (.raised text, some (.host text))
  | .ok [] => .ok .unit
  | .ok [v] => .ok v.toValue
  | .ok vs => .error (.hostResults d.type.text vs.length, none)

variable {ps rs : List HostType} {variadic : Bool} {name : String} {held : List Content} {d : HostData}

theorem call_of_arguments {args : List Value} {as : List HostValue} (ht : d.type.base = .func ps false rs)
    (hc : d.content = .func name held) (ha : arguments h 1 args ps = .ok as) :
    call lib h d args = answer d (lib.call name held as) := by
  simp only [call, ht, hc, ha, Bool.false_eq_true, if_false]
  rcases lib.call name held as with text | _ | ⟨a, _ | ⟨b, bs⟩⟩ <;> rfl

/-- **Integers keep their value when they cross between the language and the host.**

What the language takes for an integer is one, and of a whole number it makes the one of 64 bits. A host
function, whatever its type is called, is called with arguments of which, where it takes an integer, each
is what its kind has for the number that was given, and zero for `()`, and where it takes an interface,
the value itself; or else it is not called and the application fails with the number and the type of an
argument, which is neither an integer nor `()` if an integer is taken there. -/
theorem integers_cross {args : List Value} (ht : d.type.base = .func ps variadic rs)
    (hc : d.content = .func name held) (hlen : args.length = ps.length)
    (hs : ∀ v ∈ args, ∀ t ∈ ps, (h.toHost v).Sound t) :
    (∀ v : Value, (v.int?.isSome = v.integer?.isSome) ∧
      ∀ n, v.integer? = some n → ∃ i, v.int? = some i ∧ IntKind.int64.Receives n i.toInt ∧
        (IntKind.int64.Holds n → i.toInt = n)) ∧
    ((variadic = true ∧ d.call lib h args = .error (.variadic d.type.text, none)) ∨
     (∃ (i : Nat) (v : Value) (t : HostType), args[i]? = some v ∧ ps[i]? = some t ∧
        d.call lib h args = .error (.hostArg (1 + i) v.typeName t.text, none) ∧
        (t.intKind? ≠ none → (h.toHost v).integer? = none ∧ h.toHost v ≠ .nil)) ∨
      ∃ as, d.call lib h args = d.answer (lib.call name held as) ∧
        ∀ (i : Nat) (v : Value) (t : HostType), args[i]? = some v → ps[i]? = some t →
          (t.isInterface → as[i]? = some (h.toHost v)) ∧
          ∀ k, t.intKind? = some k →
            ∃ m, as[i]? = some (.data ⟨t, .int m⟩) ∧ (h.toHost v).Arrives k m ∧
              ∀ n, (h.toHost v).integer? = some n → k.Holds n → m = n) := by
  refine ⟨fun v => ⟨by rw [Value.int?_eq_map, Option.isSome_map], fun n hn => ?_⟩, ?_⟩
  · obtain ⟨i, hi, hr⟩ := Value.int?_of_integer? hn
    exact ⟨i, hi, hr, hr.eq_of_holds⟩
  cases variadic with
  | true => exact .inl ⟨rfl, by simp only [call, ht, hc, if_true]⟩
  | false =>
    have sound : ∀ {i : Nat} {v : Value} {t : HostType}, args[i]? = some v → ps[i]? = some t →
        (h.toHost v).Sound t := fun hv ht =>
      hs _ (List.mem_of_getElem? hv) _ (List.mem_of_getElem? ht)
    obtain ⟨as, has, hmap⟩ | ⟨i, v, t, hv, ht', hnone, herr⟩ :=
      arguments_cases (h := h) args 1 hlen
    · refine .inr (.inr ⟨as, call_of_arguments ht hc has, fun i v t hv ht' => ?_⟩)
      obtain ⟨a, ha, hva⟩ := hmap i v t hv ht'
      refine ⟨fun hint => ?_, fun k hk => ?_⟩
      · obtain rfl := argument?_of_isInterface hint hva
        exact ha
      · obtain ⟨m, hm, harrives⟩ | ⟨hnone, -⟩ := argument?_of_intKind? hk (sound hv ht')
        · exact ⟨m, ha.trans (hva.symm.trans hm), harrives, fun n => harrives.eq_of_holds⟩
        · rw [hva] at hnone
          cases hnone
    · refine .inr (.inl ⟨i, v, t, hv, ht', ?_, fun hk => ?_⟩)
      · simp only [call, ht, hc, herr, Bool.false_eq_true, if_false]
      · obtain ⟨k, hk⟩ := Option.ne_none_iff_exists'.mp hk
        obtain ⟨m, hm, -⟩ | ⟨-, h⟩ := argument?_of_intKind? hk (sound hv ht')
        · rw [hnone] at hm
          cases hm
        · exact h

/-- The type of functions of two integers, under a name of its own. -/
def operation : HostType := .named "main.operation" (.func [.int .int, .int .int] false [.int .int])

/-- A sum of an integer of the language and a byte of the host, by a function whose type has a name. -/
theorem integers_cross_sum :
    ∃ as, call .sample {} ⟨operation, .func "add" []⟩ [.int (-2), .host ⟨.int .uint8, .int 200⟩] =
      answer ⟨operation, .func "add" []⟩ (Sample.call "add" [] as) ∧
      as[0]? = some (.data ⟨.int .int, .int (-2)⟩) ∧
      as[1]? = some (.data ⟨.int .int, .int 200⟩) := by
  have hs : ∀ v ∈ [Value.int (-2), .host ⟨.int .uint8, .int 200⟩],
      ∀ t ∈ [HostType.int .int, .int .int], (Heap.toHost {} v).Sound t := by
    intro v hv t ht
    simp only [List.mem_cons, List.not_mem_nil, or_false, or_self] at hv ht
    subst ht
    rcases hv with rfl | rfl
    all_goals
      refine ⟨fun d k hd hk => ?_, fun s hs hsame => ?_⟩
      · cases hd
        cases hk
        exact ⟨_, rfl, by decide⟩
      · cases hs
        exact absurd hsame (by decide)
  obtain ⟨-, ⟨hv, -⟩ | ⟨i, v, t, hv, ht, -, hi⟩ | ⟨as, hcall, has⟩⟩ :=
    @integers_cross {} .sample [.int .int, .int .int] [.int .int] false "add" []
      ⟨operation, .func "add" []⟩ _ rfl rfl rfl hs
  · cases hv
  · exfalso
    rcases i with _ | _ | i
    · cases hv
      cases ht
      cases (hi nofun).1
    · cases hv
      cases ht
      cases (hi nofun).1
    · cases hv
  · obtain ⟨m₀, h₀, -, heq₀⟩ := (has 0 _ _ rfl rfl).2 .int rfl
    obtain ⟨m₁, h₁, -, heq₁⟩ := (has 1 _ _ rfl rfl).2 .int rfl
    obtain rfl := heq₀ (-2) rfl (by decide)
    obtain rfl := heq₁ 200 rfl (by decide)
    exact ⟨as, hcall, h₀, h₁⟩

/-- Numbers that a kind does not have keep their lowest bits, and `()` is received as zero. -/
theorem integers_wrap :
    (HostData.mk (.int .uint64) (.int 9223372036854775808)).int? = some (-9223372036854775808) ∧
    call .sample {} ⟨.func [.int .uint8] false [.int .uint8], .func "u8" []⟩ [.int 300] =
      .ok (.host ⟨.int .uint8, .int 44⟩) ∧
    call .sample {} ⟨.func [.int .int, .int .int] false [.int .int], .func "add" []⟩
      [.unit, .int 1] = .ok (.host ⟨.int .int, .int 1⟩) :=
  ⟨rfl, rfl, rfl⟩

end HostData

end LazySession
