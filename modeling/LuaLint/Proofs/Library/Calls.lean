import Mathlib.Data.List.Pairwise
import LuaLint.Lint.LibraryUse

/-!
# Calls of library functions

A call is compared with the declared arguments of a function in two ways.

The number of its arguments is compared with numbers alone. This finds nothing that a look at the
single positions would not find, and misses a required argument only behind an optional one.

The types of its arguments are those that are known without running the program. They are the types
of the values but for arithmetic on strings, which yields numbers while the type of its operands is
taken for that of the result.

Main statements: `countArguments_flagged`, `Expr.passedType?_describes`.
-/

namespace LuaLint

open List LintInput

variable {c : Call} {t : PassedType} {e : Expr} {want : Argument}

variable {declared : List Argument} {passed : Nat}

/-! ## Positions -/

/-- A required argument stands at a position that a number of passed arguments does not reach. -/
def Unreached (declared : List Argument) (passed : Nat) : Prop :=
  ∃ i a, declared[i]? = some a ∧ a.requirement.isRequired = true ∧ passed ≤ i

/-- The last of some declared arguments, if it is `...`. -/
def trailing? (declared : List Argument) : Option Argument :=
  declared.getLast?.filter fun a => a.type == .vararg

/-- The last of the declared arguments is a `...` that must be reached. -/
def NeedsTrailing (declared : List Argument) : Prop :=
  ((trailing? declared).any fun a => a.requirement.isRequired) = true

/-- More arguments are passed than declared, and `...` is not there to take them. -/
def Surplus (declared : List Argument) (passed : Nat) : Prop :=
  declared.length < passed ∧ trailing? declared = none

/-- The number of required arguments, among which a required `...` does not count. -/
def requiredCount (declared : List Argument) : Nat :=
  declared.countP (fun a => a.requirement.isRequired) -
    if (trailing? declared).any fun a => a.requirement.isRequired then 1 else 0

/-- No required argument stands behind an optional one. -/
def RequiredFirst (declared : List Argument) : Prop :=
  declared.Pairwise fun a b => b.requirement.isRequired = true → a.requirement.isRequired = true

/-- The last argument of a call may stand for any number of values: it is a call or `...`, in a list
in parentheses. -/
def Call.Expands (c : Call) : Prop :=
  ∃ lparen rparen last, c.form = .parens lparen rparen ∧ c.args.getLast? = some last ∧
    ((∃ callee method form args, last = .call callee method form args) ∨ ∃ pos, last = .vararg pos)

/-- Something is wrong with the number of arguments. -/
def CountCheck.Flagged (check : CountCheck) : Prop :=
  check.wrong = true ∨ check.missing.isSome = true

/-- Arguments that are too few for the required ones leave one of them out, whichever it is. -/
theorem unreached_of_lt (h : passed < declared.countP fun a => a.requirement.isRequired) :
    Unreached declared passed := by
  have hfirst : (declared.take passed).countP (fun a => a.requirement.isRequired) ≤ passed :=
    Nat.le_trans countP_le_length (length_take_le passed declared)
  rw [← take_append_drop passed declared, countP_append] at h
  have hrest : 0 < (declared.drop passed).countP fun a => a.requirement.isRequired := by omega
  obtain ⟨a, ha, hrequired⟩ := countP_pos_iff.mp hrest
  obtain ⟨i, hi⟩ := getElem?_of_mem ha
  rw [getElem?_drop] at hi
  exact ⟨passed + i, a, hi, hrequired, Nat.le_add_right passed i⟩

theorem lt_of_unreached (horder : RequiredFirst declared) (h : Unreached declared passed) :
    passed < declared.countP fun a => a.requirement.isRequired := by
  obtain ⟨i, a, hi, hrequired, hle⟩ := h
  obtain ⟨hlt, hget⟩ := List.getElem?_eq_some_iff.mp hi
  -- all arguments in front of a required one are required
  have hall : ∀ b ∈ declared.take (i + 1), b.requirement.isRequired = true := by
    intro b hb
    obtain ⟨j, hj⟩ := getElem?_of_mem hb
    obtain ⟨hj', hjget⟩ := List.getElem?_eq_some_iff.mp hj
    simp only [length_take] at hj'
    rw [getElem_take] at hjget
    rcases Nat.lt_or_ge j i with hji | hji
    · have hbefore := pairwise_iff_getElem.mp horder j i (by omega) hlt hji
      rw [hget, hjget] at hbefore
      exact hbefore hrequired
    · obtain rfl : j = i := by omega
      rw [← hjget, hget]
      exact hrequired
  have htake : (declared.take (i + 1)).countP (fun a => a.requirement.isRequired) = i + 1 := by
    rw [countP_eq_length.mpr hall, length_take]
    omega
  rw [← take_append_drop (i + 1) declared, countP_append, htake]
  omega

theorem NeedsTrailing.unreached (h : NeedsTrailing declared) (hlt : passed < declared.length) :
    Unreached declared passed := by
  obtain ⟨a, ha, hrequired⟩ := (Option.any_eq_true _ _).mp h
  obtain ⟨hlast, -⟩ := Option.filter_eq_some_iff.mp ha
  rw [getLast?_eq_getElem?] at hlast
  exact ⟨declared.length - 1, a, hlast, hrequired, by omega⟩

theorem Unreached.lt_length (h : Unreached declared passed) : passed < declared.length := by
  obtain ⟨i, a, hi, -, hle⟩ := h
  have hlt := (List.getElem?_eq_some_iff.mp hi).1
  omega

theorem requiredCount_of_not_needsTrailing (h : ¬NeedsTrailing declared) :
    requiredCount declared = declared.countP fun a => a.requirement.isRequired := by
  simp [requiredCount, Bool.not_eq_true _ ▸ h]

/-! ## Numbers of arguments -/

theorem Call.maybeMore_iff (c : Call) : c.maybeMore = true ↔ c.Expands := by
  cases hform : c.form <;> cases hlast : c.args.getLast? <;>
    simp [Call.maybeMore, Call.Expands, hform, hlast]
  rename_i last
  cases last <;> simp [Expr.isOpen, Expr.isCall, Expr.isVararg]

/-- What the comparison says, in terms of the numbers. -/
theorem flagged_iff (declared : List Argument) (c : Call) : (countArguments declared c).Flagged ↔
      (¬c.Expands ∧ (c.args.length < requiredCount declared ∨
        NeedsTrailing declared ∧ c.args.length < declared.length)) ∨
      Surplus declared c.args.length := by
  rw [← c.maybeMore_iff, Bool.not_eq_true]
  rcases hlast : declared.getLast? with _ | ⟨need, type, observes⟩
  · obtain rfl := getLast?_eq_none_iff.mp hlast
    simp [CountCheck.Flagged, countArguments, requiredCount, trailing?, Surplus, NeedsTrailing]
  · have hoptional : Requirement.optional.isRequired = false := rfl
    have hrequired (reason : Bytes) : (Requirement.required reason).isRequired = true := rfl
    -- of the last declared argument only its type and its requirement matter
    cases type <;> cases need <;>
      simp [CountCheck.Flagged, countArguments, requiredCount, trailing?, Surplus, NeedsTrailing,
        hlast, hoptional, hrequired, countP_eq_length_filter, and_or_left, and_comm]

theorem missing_of_expands (declared : List Argument) (h : c.Expands) :
    (countArguments declared c).missing = none := by
  rw [← c.maybeMore_iff] at h
  unfold countArguments
  split <;> simp [h]

/-- The number of arguments is judged by numbers: there are fewer than required ones, or fewer than
it takes to reach a required `...`, or more than declared. Whatever is judged to be wrong is wrong
at some position as well, and the other way round unless a required argument stands behind an
optional one. A call whose last argument may stand for many values never passes too few. -/
theorem countArguments_flagged (declared : List Argument) (c : Call) :
    (¬c.Expands →
      ((countArguments declared c).Flagged ↔
        c.args.length < requiredCount declared ∨
        (NeedsTrailing declared ∧ c.args.length < declared.length) ∨
        Surplus declared c.args.length)) ∧
    ((countArguments declared c).Flagged →
      Unreached declared c.args.length ∨ Surplus declared c.args.length) ∧
    (¬c.Expands → (RequiredFirst declared ∨ NeedsTrailing declared) →
      ((countArguments declared c).Flagged ↔
        Unreached declared c.args.length ∨ Surplus declared c.args.length)) ∧
    (c.Expands →
      ((countArguments declared c).wrong = true ↔ Surplus declared c.args.length) ∧
      (countArguments declared c).missing = none) := by
  have hsound : (countArguments declared c).Flagged →
      Unreached declared c.args.length ∨ Surplus declared c.args.length := by
    intro h
    rcases (flagged_iff declared c).mp h with ⟨-, hfew | ⟨hneeds, hlt⟩⟩ | hmany
    · exact .inl (unreached_of_lt (Nat.lt_of_lt_of_le hfew (Nat.sub_le _ _)))
    · exact .inl (hneeds.unreached hlt)
    · exact .inr hmany
  refine ⟨fun hexpands => ?_, hsound, fun hexpands horder => ⟨hsound, ?_⟩, fun hexpands => ?_⟩
  · simp only [flagged_iff, hexpands, not_false_eq_true, true_and, or_assoc]
  · rintro (hunreached | hmany)
    · apply (flagged_iff declared c).mpr
      refine .inl ⟨hexpands, ?_⟩
      -- Required arguments come first, so that counting them is enough.
      by_cases hneeds : NeedsTrailing declared
      · exact .inr ⟨hneeds, hunreached.lt_length⟩
      · rw [requiredCount_of_not_needsTrailing hneeds]
        exact .inl (lt_of_unreached (horder.resolve_right hneeds) hunreached)
    · exact (flagged_iff declared c).mpr (.inr hmany)
  · have hmissing := missing_of_expands declared hexpands
    have hflagged := flagged_iff declared c
    simp only [CountCheck.Flagged, hmissing, hexpands, Option.isSome_none, Bool.false_eq_true,
      or_false, not_true_eq_false, false_and, false_or] at hflagged
    exact ⟨hflagged, hmissing⟩

/-- A call `f(0)`. -/
def zeroCall : Call := ⟨.name ⟨0, "f"⟩, none, .parens 1 3, [.number 2 "0"]⟩

theorem zeroCall_not_expands : ¬zeroCall.Expands := by
  simp [zeroCall, Call.Expands]

/-- One argument is too few for two that are required. -/
theorem countArguments_flagged_short :
    (countArguments [⟨.required [], .any, .readWrite⟩, ⟨.required [], .any, .readWrite⟩]
      zeroCall).Flagged :=
  ((countArguments_flagged _ _).2.2.1 zeroCall_not_expands (.inl (by simp [RequiredFirst]))).mpr
    (.inl ⟨1, _, rfl, rfl, Nat.le_refl 1⟩)

/-- One argument does not reach a required one behind an optional one, and yet counts as enough. -/
theorem countArguments_behind_optional :
    ∃ declared, ¬zeroCall.Expands ∧ Unreached declared zeroCall.args.length ∧
      ¬(countArguments declared zeroCall).Flagged :=
  ⟨[⟨.optional, .any, .readWrite⟩, ⟨.required [], .any, .readWrite⟩], zeroCall_not_expands,
    ⟨1, _, rfl, rfl, Nat.le_refl 1⟩, by
      simp [CountCheck.Flagged, countArguments, zeroCall, Requirement.isRequired]⟩

/-! ## Values -/

/-- Numbers with what the language does with them. An operation may fail. -/
structure NumberSystem where
  Number : Type
  /-- The number that a numeral, or a string that looks like one, stands for. -/
  read? : Bytes → Option Number
  text : Number → Bytes
  negate : Number → Number
  complement? : Number → Option Number
  result? : BinaryOp → Number → Number → Option Number

variable {S : NumberSystem}

/-- The values of a program. Tables and functions are told apart by numbers, and values of all other
types by the names of these types. -/
inductive Value (S : NumberSystem) where
  | nil
  | bool (b : Bool)
  | number (n : S.Number)
  | string (s : Bytes)
  | table (id : Nat)
  | function (id : Nat)
  | object (type : Bytes)

namespace Value

def type : Value S → ArgType
  | .nil => .nil
  | .bool _ => .bool
  | .number _ => .number
  | .string _ => .string
  | .table _ => .table
  | .function _ => .function
  | .object name => .display name

def isTrue : Value S → Bool
  | .nil | .bool false => false
  | _ => true

/-- The number that arithmetic takes a value for. -/
def number? : Value S → Option S.Number
  | .number n => some n
  | .string s => S.read? s
  | _ => none

/-- The string that concatenation takes a value for. -/
def text? : Value S → Option Bytes
  | .number n => some (S.text n)
  | .string s => some s
  | _ => none

/-- The value belongs to a declared type. -/
def Has (v : Value S) : ArgType → Prop
  | .any | .vararg => True
  | .constant values => ∃ s ∈ values, v = .string s
  | t => v.type = t

/-- The value may be passed for a declared argument. -/
def Suits (v : Value S) (a : Argument) : Prop :=
  v.Has a.type ∨ (a.requirement = .optional ∧ v = .nil)

end Value

def BinaryOp.IsComparison (op : BinaryOp) : Prop :=
  op ∈ [BinaryOp.less, .greater, .lessEqual, .greaterEqual, .notEqual, .equal]

/-- The operator makes a number of two numbers. -/
def BinaryOp.IsNumeric (op : BinaryOp) : Prop :=
  op ∈ [BinaryOp.add, .subtract, .multiply, .divide, .floorDivide, .modulo, .power, .bitOr, .bitXor,
    .bitAnd, .shiftLeft, .shiftRight]

/-- The expression has its value from elsewhere: a variable, a table or a call. -/
inductive Expr.IsAsked : Expr → Prop where
  | vararg (pos : Nat) : IsAsked (.vararg pos)
  | name (i : Ident) : IsAsked (.name i)
  | field (object : Expr) (i : Ident) : IsAsked (.field object i)
  | element (object : Expr) (lbrack : Nat) (key : Expr) (rbrack : Nat) :
      IsAsked (.element object lbrack key rbrack)
  | call (callee : Expr) (method : Option Ident) (form : CallForm) (args : List Expr) :
      IsAsked (.call callee method form args)

/-- An expression can have a value: it is evaluated without an error, and no metatable has a say in
it. What is asked for elsewhere can be any value. -/
inductive Evaluates (S : NumberSystem) : Expr → Value S → Prop where
  | nil (pos : Nat) : Evaluates S (.nil pos) .nil
  | bool (pos : Nat) (b : Bool) : Evaluates S (.bool pos b) (.bool b)
  | number {pos : Nat} {raw : Bytes} {n : S.Number} (h : S.read? raw = some n) :
      Evaluates S (.number pos raw) (.number n)
  | string (pos : Nat) (raw s : Bytes) : Evaluates S (.string pos raw s) (.string s)
  | function (pos : Nat) (body : FuncBody) (id : Nat) : Evaluates S (.function pos body)
    (.function id)
  | table (lbrace : Nat) (fields : List TableField) (rbrace id : Nat) :
      Evaluates S (.table lbrace fields rbrace) (.table id)
  | asked {e : Expr} (h : e.IsAsked) (v : Value S) : Evaluates S e v
  | paren {lparen rparen : Nat} {e : Expr} {v : Value S} (h : Evaluates S e v) :
      Evaluates S (.paren lparen e rparen) v
  | not {pos : Nat} {e : Expr} {v : Value S} (h : Evaluates S e v) :
      Evaluates S (.unary .not pos e) (.bool !v.isTrue)
  | length {pos : Nat} {e : Expr} {v : Value S} (h : Evaluates S e v) (n : S.Number) :
      Evaluates S (.unary .length pos e) (.number n)
  | negate {pos : Nat} {e : Expr} {v : Value S} {n : S.Number} (h : Evaluates S e v)
      (hn : v.number? = some n) : Evaluates S (.unary .negate pos e) (.number (S.negate n))
  | complement {pos : Nat} {e : Expr} {v : Value S} {n m : S.Number} (h : Evaluates S e v)
      (hn : v.number? = some n) (hm : S.complement? n = some m) :
      Evaluates S (.unary .complement pos e) (.number m)
  | arithmetic {op : BinaryOp} {pos : Nat} {left right : Expr} {v w : Value S} {a b c : S.Number}
      (hop : op.IsNumeric) (hleft : Evaluates S left v) (hright : Evaluates S right w)
      (ha : v.number? = some a) (hb : w.number? = some b) (hc : S.result? op a b = some c) :
      Evaluates S (.binary op pos left right) (.number c)
  | comparison {op : BinaryOp} {pos : Nat} {left right : Expr} {v w : Value S}
      (hop : op.IsComparison) (hleft : Evaluates S left v) (hright : Evaluates S right w)
        (b : Bool) :
      Evaluates S (.binary op pos left right) (.bool b)
  | concat {pos : Nat} {left right : Expr} {v w : Value S} {s t : Bytes}
    (hleft : Evaluates S left v)
      (hright : Evaluates S right w) (hs : v.text? = some s) (ht : w.text? = some t) :
      Evaluates S (.binary .concat pos left right) (.string (s ++ t))
  -- the right operand of `and` and `or` is left alone where the left one decides
  | decided {op : BinaryOp} {pos : Nat} {left right : Expr} {v : Value S}
    (hleft : Evaluates S left v)
      (hop : (op = .and ∧ v.isTrue = false) ∨ (op = .or ∧ v.isTrue = true)) :
      Evaluates S (.binary op pos left right) v
  | undecided {op : BinaryOp} {pos : Nat} {left right : Expr} {v w : Value S}
      (hleft : Evaluates S left v) (hright : Evaluates S right w)
      (hop : (op = .and ∧ v.isTrue = true) ∨ (op = .or ∧ v.isTrue = false)) :
      Evaluates S (.binary op pos left right) w

/-! ## Known types -/

/-- What is known of a value holds of it. -/
def PassedType.Describes : PassedType → Value S → Prop
  | .literal text, v => v = .string text
  | .some t, v => v.type = t

/-- The expression is a minus sign or one of `+ - * /`, whose type is taken from the operands. -/
def Expr.IsArithmetic (e : Expr) : Prop :=
  (∃ pos operand, e.strip = .unary .negate pos operand) ∨
    ∃ op pos left right, e.strip = .binary op pos left right ∧
      op ∈ [BinaryOp.add, .subtract, .multiply, .divide]

theorem PassedType.describes_number {n : S.Number} :
    t.Describes (.number n : Value S) ↔ t = .some .number := by
  cases t <;> simp [PassedType.Describes, Value.type, eq_comm]

/-- Where arithmetic takes a value for a number, the value is known to be a number or a string. -/
theorem Value.known_of_number? {v : Value S} {n : S.Number} (h : t.type = .string ∨ t.Describes v)
    (hn : v.number? = Option.some n) : t.type = .string ∨ t = .some .number := by
  rcases h with h | h
  · exact .inl h
  · cases v <;> cases t <;> simp_all
      [Value.number?, PassedType.Describes, PassedType.type, Value.type]

theorem PassedType.describes_of_arithmetic (he : e.IsArithmetic)
    (h : t.type = .string ∨ t = .some .number) (n : S.Number) :
    t.Describes (.number n : Value S) ↔ ¬(e.IsArithmetic ∧ t.type = .string) := by
  rw [PassedType.describes_number]
  rcases h with h | rfl
  · simp only [he, h, and_self, not_true_eq_false, iff_false]
    rintro rfl
    cases h
  · simp [PassedType.type]

theorem arithmeticType?_eq_some {p q : Option PassedType} (h : arithmeticType? p q = some t) :
    p = some t ∧ q = some t := by
  unfold arithmeticType? at h
  split at h
  · split at h
    · subst_vars
      simp_all
    · cases h
  · cases h

/-- The known type of an expression is that of its value, unless arithmetic makes a number of what
is known to be a string. -/
theorem Evaluates.describes_iff {v : Value S} (hev : Evaluates S e v) (h : e.passedType? = some t)
    (ht : t ≠ .some .vararg) : t.Describes v ↔ ¬(e.IsArithmetic ∧ t.type = .string) := by
  induction hev generalizing t with
  | nil | bool | number | string | function | table | not | length | concat =>
    cases h
    simp [PassedType.Describes, Value.type, Expr.IsArithmetic, Expr.strip]
  | asked he => cases he <;> simp_all [Expr.passedType?]
  | paren hev ih => exact ih h ht
  | negate hev hn ih =>
    -- the operand is a number, or a string for all that is known
    have hoperand : t.type = .string ∨ t.Describes _ :=
      or_iff_not_imp_left.mpr fun hs => (ih h ht).mpr fun both => hs both.2
    exact PassedType.describes_of_arithmetic (.inl ⟨_, _, rfl⟩)
      (Value.known_of_number? hoperand hn) _
  | complement => cases h
  | @arithmetic op pos left right v w a b c hop hleft hright ha hb hc ihleft _ =>
    have hmixed (hmixed : op ∈ [BinaryOp.add, .subtract, .multiply, .divide])
        (h : arithmeticType? left.passedType? right.passedType? = some t) :
        t.Describes (.number c : Value S) ↔
          ¬((Expr.binary op pos left right).IsArithmetic ∧ t.type = .string) := by
      have hoperand : t.type = .string ∨ t.Describes v :=
        or_iff_not_imp_left.mpr fun hs =>
          (ihleft (arithmeticType?_eq_some h).1 ht).mpr fun both => hs both.2
      exact PassedType.describes_of_arithmetic (.inr ⟨_, _, _, _, rfl, hmixed⟩)
        (Value.known_of_number? hoperand ha) _
    cases op with
    | add | subtract | multiply | divide => exact hmixed (by simp) h
    | power | modulo =>
      cases h
      simp [PassedType.Describes, Value.type, Expr.IsArithmetic, Expr.strip]
    | floorDivide | bitOr | bitXor | bitAnd | shiftLeft | shiftRight => cases h
    | _ => simp [BinaryOp.IsNumeric] at hop
  | @comparison op pos left right v w hop hleft hright b =>
    simp only [BinaryOp.IsComparison, mem_cons, not_mem_nil, or_false] at hop
    rcases hop with rfl | rfl | rfl | rfl | rfl | rfl <;> cases h <;>
      simp [PassedType.Describes, Value.type, Expr.IsArithmetic, Expr.strip]
  | decided hleft hop => rcases hop with ⟨rfl, -⟩ | ⟨rfl, -⟩ <;> cases h
  | undecided hleft hright hop => rcases hop with ⟨rfl, -⟩ | ⟨rfl, -⟩ <;> cases h

/-! ## Reported types -/

/-- What is known of a value fits every type that the value belongs to. -/
theorem PassedType.fits_of_has {v : Value S} {type : ArgType} (hv : t.Describes v)
    (hhas : v.Has type) (htype : type ≠ .vararg) : t.fits type = true := by
  cases t with
  | literal text =>
    cases hv
    cases type <;> simp_all [Value.Has, Value.type, PassedType.fits]
  | some known =>
    cases hv
    cases v <;> cases type <;> simp_all [Value.Has, Value.type, PassedType.fits]

theorem Value.isFine_of_suits {v : Value S} (hv : t.Describes v) (h : v.Suits want) :
    isFine want t = true := by
  obtain ⟨need, type, observes⟩ := want
  rcases h with hhas | ⟨rfl, rfl⟩
  · by_cases htype : type = .vararg
    · simp [isFine, htype]
    · simp [isFine, PassedType.fits_of_has hv hhas htype]
  · cases t with
    | literal => cases hv
    | some known =>
      cases hv
      simp [isFine, Requirement.isRequired, Value.type]

theorem LintInput.ne_vararg_of_isFine (h : isFine want t = false) :
    t ≠ .some .vararg := by
  rintro rfl
  obtain ⟨need, type, observes⟩ := want
  cases type <;> simp [isFine, PassedType.fits] at h

theorem LintInput.exists_of_mem_wrongTypes {name : Bytes} {f : Finding}
    (h : f ∈ wrongTypes name declared c.passed) :
    ∃ (i : Nat) (want : Argument) (e : Expr) (t : PassedType), declared[i]? = some want ∧
      c.args[i]? = some e ∧ e.passedType? = some t ∧
      isFine want t = false ∧ f.primary = (Label.ofSpan e.span).saying
        ("expected `" ++ want.type.label ++ "`, received `" ++ t.type.label ++ "`") := by
  obtain ⟨⟨want, given⟩, hmem, hf⟩ := mem_filterMap.mp h
  obtain ⟨i, hi⟩ := getElem?_of_mem hmem
  obtain ⟨hwant, hgiven⟩ := getElem?_zip_eq_some.mp hi
  simp only [Call.passed, getElem?_map, Option.map_eq_some_iff] at hgiven
  obtain ⟨e, he, rfl⟩ := hgiven
  simp only [Option.bind_eq_bind, Option.bind_eq_some_iff] at hf
  obtain ⟨t, ht, hf⟩ := hf
  split at hf
  · cases hf
  · rename_i hfine
    cases hf
    exact ⟨i, want, e, t, hwant, he, ht, Bool.not_eq_true _ ▸ hfine, rfl⟩

/-- The known type of an expression is that of its value, and a known string is its value, except
for arithmetic with operands that are known to be strings. An argument is reported for its type only
if none of its values may be passed for the declared argument, with the same exception. -/
theorem Expr.passedType?_describes (S : NumberSystem) :
    (∀ (e : Expr) (v : Value S) (t : PassedType), Evaluates S e v → e.passedType? = some t →
      t ≠ .some .vararg → (t.Describes v ↔ ¬(e.IsArithmetic ∧ t.type = .string))) ∧
    ∀ (name : Bytes) (declared : List Argument) (c : Call),
      ∀ f ∈ LintInput.wrongTypes name declared c.passed,
        ∃ (i : Nat) (want : Argument) (e : Expr) (t : PassedType), declared[i]? = some want ∧
          c.args[i]? = some e ∧ e.passedType? = some t ∧
          f.primary = (Label.ofSpan e.span).saying
            ("expected `" ++ want.type.label ++ "`, received `" ++ t.type.label ++ "`") ∧
          ∀ v : Value S, Evaluates S e v → ¬(e.IsArithmetic ∧ t.type = .string) →
            ¬v.Suits want := by
  refine ⟨fun e v t hev h ht => hev.describes_iff h ht, ?_⟩
  intro name declared c f hf
  obtain ⟨i, want, e, t, hwant, he, ht, hfine, hprimary⟩ := LintInput.exists_of_mem_wrongTypes hf
  refine ⟨i, want, e, t, hwant, he, ht, hprimary, fun v hev hplain hsuits => ?_⟩
  have hdescribes := (hev.describes_iff ht (LintInput.ne_vararg_of_isFine hfine)).mpr hplain
  rw [Value.isFine_of_suits hdescribes hsuits] at hfine
  cases hfine

/-- Integers of any size. -/
def integers : NumberSystem where
  Number := Int
  read? s :=
    if !s.isEmpty && s.all (fun b => 48 ≤ b && b ≤ 57) then some (Deprecation.numeral s) else none
  text := Bytes.ofInt
  negate n := -n
  complement? n := some (-n - 1)
  result? op a b :=
    match op with
    | .add => some (a + b)
    | .subtract => some (a - b)
    | .multiply => some (a * b)
    | _ => none

/-- The value of `(3 - 5)` is a number, as is known of it. -/
theorem Expr.passedType?_describes_difference :
    ∃ (e : Expr) (v : Value integers) (t : PassedType), e.passedType? = some t ∧
      Evaluates integers e v ∧ t.Describes v :=
  have hev : Evaluates integers (.paren 0 (.binary .subtract 3 (.number 1 "3") (.number 5 "5")) 6)
      (.number (-2 : Int)) :=
    .paren (.arithmetic (by simp [BinaryOp.IsNumeric]) (.number rfl) (.number rfl) rfl rfl rfl)
  ⟨_, _, .some .number, rfl, hev,
    ((Expr.passedType?_describes integers).1 _ _ _ hev rfl (by simp)).mpr
      (by simp [PassedType.type])⟩

/-- The value of `-"5"` is a number, but it is taken for a string and reported. -/
theorem Expr.passedType?_negated_string :
    ∃ (e : Expr) (v : Value integers) (want : Argument), Evaluates integers e v ∧ v.Has .number ∧
      e.passedType? = some (.literal "5") ∧ v.Suits want ∧
      LintInput.wrongTypes "f" [want] [⟨e.span, e.passedType?⟩] ≠ [] :=
  have hev : Evaluates integers (.unary .negate 0 (.string 1 "'5'" "5")) (.number (-5 : Int)) :=
    .negate (.string 1 "'5'" "5") rfl
  ⟨_, _, ⟨.required [], .number, .readWrite⟩, hev, rfl, rfl, .inl rfl, by decide +kernel⟩

end LuaLint
