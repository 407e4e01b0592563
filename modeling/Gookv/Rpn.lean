/-
Predicates of the coprocessor: `RPNExpression` of `internal/coprocessor/coprocessor.go`.

`evalComparison` compares the operands as floats.  Rounding to them keeps the order
(`nearest_mono`), so that only operands with one float are compared wrongly, and strings and bytes
always have one: `evalBinaryOp_compare` says exactly when, `eval_postfixForm` carries it through
the stack evaluation of any tree.
-/
import Gookv.SelectResponse

namespace Rpn

open Coprocessor Option

def isNull (d : Datum) : Bool := d == .null

inductive F64
  | nan
  | inf (neg : Bool)
  | num (q : ℚ)

namespace F64

def ofBits (bits : UInt64) : F64 :=
  let neg : Bool := 2 ^ 63 ≤ bits.toNat
  let exponent := bits.toNat / 2 ^ 52 % 2 ^ 11
  let fraction : ℕ := bits.toNat % 2 ^ 52
  let sign : ℚ := if neg then -1 else 1
  if exponent = 2047 then if fraction = 0 then inf neg else nan
  else if exponent = 0 then num (sign * fraction / 2 ^ 1074)
  else num (sign * (2 ^ 52 + fraction) * 2 ^ exponent / 2 ^ 1075)

/-- The float next to a natural number, the even one of two. -/
def round (n : ℕ) : ℕ :=
  let ulp := 2 ^ (n.log2 - 52)
  let q := n / ulp
  let r := n % ulp
  (if 2 * r < ulp ∨ 2 * r = ulp ∧ q % 2 = 0 then q else q + 1) * ulp

def nearest (v : ℤ) : ℤ := v.sign * round v.natAbs

def ofInt (v : ℤ) : F64 := num (nearest v)

def eq : F64 → F64 → Bool
  | num a, num b => a = b
  | inf a, inf b => a = b
  | _, _ => false

def lt : F64 → F64 → Bool
  | num a, num b => a < b
  | num _, inf neg => !neg
  | inf neg, num _ => neg
  | inf a, inf b => a && !b
  | _, _ => false

def toInt64 : F64 → Int64
  | num q =>
    let v := if q < 0 then ⌈q⌉ else ⌊q⌋
    if -2 ^ 63 ≤ v ∧ v < 2 ^ 63 then Int64.ofInt v else Int64.minValue
  | _ => Int64.minValue

end F64

def toInt64 : Datum → Int64
  | .int64 i64 => i64
  | .uint64 u64 => u64.toInt64
  | .float64 bits => (F64.ofBits bits).toInt64
  | .null | .string _ | .bytes _ => 0

def toFloat64 : Datum → F64
  | .float64 bits => .ofBits bits
  | .int64 i64 => .ofInt i64.toInt
  | .uint64 u64 => .ofInt u64.toNat
  | .null | .string _ | .bytes _ => .num 0

inductive Comparison
  | eq | lt | le | gt | ge | ne
  deriving DecidableEq

inductive Arith
  | plus | minus | mul | div

inductive BinaryOp
  | compare (op : Comparison)
  | and
  | or
  | arith (op : Arith)

inductive RPNFuncType
  | binary (op : BinaryOp)
  | not
  | isNull

inductive RPNNode
  | columnRef (colIdx : ℕ)
  | constant (d : Datum)
  | funcCall (funcType : RPNFuncType)

inductive ExprEvalError
  | columnOutOfRange (colIdx : ℕ)
  | requires (operands : ℕ)
  | stackSize (n : ℕ)
  deriving DecidableEq

def ofBool (b : Bool) : Datum := .int64 (if b then 1 else 0)

def Comparison.test (af bf : F64) : Comparison → Bool
  | eq => af.eq bf
  | lt => af.lt bf
  | le => af.lt bf || af.eq bf
  | gt => bf.lt af
  | ge => bf.lt af || bf.eq af
  | ne => !af.eq bf

def evalComparison (op : Comparison) (a b : Datum) : Datum :=
  ofBool (op.test (toFloat64 a) (toFloat64 b))

def evalLogicWithNull (isOr : Bool) (a b : Datum) : Datum :=
  let decides := fun d => !isNull d && (toInt64 d != 0) == isOr
  if decides a || decides b then ofBool isOr else .null

section

-- `evalArith`, whatever it computes
variable (evalArith : Arith → Datum → Datum → Datum)

def evalBinaryOp (a b : Datum) : BinaryOp → Datum
  | .compare op => if isNull a || isNull b then .null else evalComparison op a b
  | .and =>
    if isNull a || isNull b then evalLogicWithNull false a b
    else ofBool (toInt64 a != 0 && toInt64 b != 0)
  | .or =>
    if isNull a || isNull b then evalLogicWithNull true a b
    else ofBool (toInt64 a != 0 || toInt64 b != 0)
  | .arith .div =>
    if isNull a || isNull b || (toFloat64 b).eq (.num 0) then .null else evalArith .div a b
  | .arith op => if isNull a || isNull b then .null else evalArith op a b

def evalFunc (funcType : RPNFuncType) (stack : List Datum) : Except ExprEvalError (List Datum) :=
  match funcType, stack with
  | .not, a :: stack =>
    .ok ((if isNull a then .null else ofBool (toInt64 a == 0)) :: stack)
  | .isNull, a :: stack => .ok (ofBool (isNull a) :: stack)
  | .not, [] | .isNull, [] => .error (.requires 1)
  | .binary op, b :: a :: stack => .ok (evalBinaryOp evalArith a b op :: stack)
  | .binary _, _ => .error (.requires 2)

def evalNodes (row : Row) : List RPNNode → List Datum → Except ExprEvalError (List Datum)
  | [], stack => .ok stack
  | .columnRef colIdx :: nodes, stack =>
    match row[colIdx]? with
    | none => .error (.columnOutOfRange colIdx)
    | some d => evalNodes row nodes (d :: stack)
  | .constant d :: nodes, stack => evalNodes row nodes (d :: stack)
  | .funcCall funcType :: nodes, stack =>
    match evalFunc evalArith funcType stack with
    | .error err => .error err
    | .ok stack => evalNodes row nodes stack

def eval (nodes : List RPNNode) (row : Row) : Except ExprEvalError Datum :=
  match evalNodes evalArith row nodes [] with
  | .error err => .error err
  | .ok [d] => .ok d
  | .ok stack => .error (.stackSize stack.length)

end

inductive Expr
  | column (colIdx : ℕ)
  | constant (d : Datum)
  | binary (op : BinaryOp) (a b : Expr)
  | not (a : Expr)
  | isNull (a : Expr)

def Expr.postfixForm : Expr → List RPNNode
  | column colIdx => [.columnRef colIdx]
  | constant d => [.constant d]
  | binary op a b => a.postfixForm ++ b.postfixForm ++ [.funcCall (.binary op)]
  | not a => a.postfixForm ++ [.funcCall .not]
  | isNull a => a.postfixForm ++ [.funcCall .isNull]

abbrev Truth := Option Bool

def Truth.and : Truth → Truth → Truth
  | some false, _ | _, some false => some false
  | some true, some true => some true
  | _, _ => none

def Truth.not : Truth → Truth := Option.map (! ·)

def Truth.or (a b : Truth) : Truth := Truth.not (Truth.and (Truth.not a) (Truth.not b))

def Truth.datum (t : Truth) : Datum := t.elim .null ofBool

def truth : Datum → Option Truth
  | .null => some none
  | .int64 i64 => some (some (i64 != 0))
  | _ => none

def Comparison.holds {α : Type} [LinearOrder α] (a b : α) : Comparison → Bool
  | eq => a = b
  | lt => a < b
  | le => a ≤ b
  | gt => b < a
  | ge => b ≤ a
  | ne => a ≠ b

def sqlCompare (op : Comparison) : Datum → Datum → Option Truth
  | .int64 a, .int64 b => some (op.holds a.toInt b.toInt)
  | .string a, .string b | .bytes a, .bytes b => some (op.holds a b)
  | .null, .null | .null, .int64 _ | .null, .string _ | .null, .bytes _ | .int64 _, .null
  | .string _, .null | .bytes _, .null => some none
  | _, _ => none

def sqlBinary (x y : Datum) : BinaryOp → Option Truth
  | .compare op => sqlCompare op x y
  | .and => do return (← truth x).and (← truth y)
  | .or => do return (← truth x).or (← truth y)
  | .arith _ => none

def Expr.value (row : Row) : Expr → Option Datum
  | column colIdx => row[colIdx]?
  | constant d => some d
  | binary op a b => do return (← sqlBinary (← a.value row) (← b.value row) op).datum
  | not a => do return (← truth (← a.value row)).not.datum
  | isNull a => do return ofBool (Rpn.isNull (← a.value row))

/-- Operands that become one float are compared right if the comparison is one that gives for them
what it gives for equal ones. -/
def ComparedRight (op : Comparison) (x y : Datum) : Prop :=
  (toFloat64 x).eq (toFloat64 y) = true → ∀ b, sqlCompare op x y = some (some b) → b = op.holds 0 0

def Expr.Exact (row : Row) : Expr → Prop
  | binary (.compare op) a b => a.Exact row ∧ b.Exact row ∧
      ∀ x ∈ a.value row, ∀ y ∈ b.value row, ComparedRight op x y
  | binary _ a b => a.Exact row ∧ b.Exact row
  | not a | isNull a => a.Exact row
  | _ => True

/-! ### Rounding keeps the order -/

namespace F64

theorem round_eq (n : ℕ) : ∃ q, (q = n / 2 ^ (n.log2 - 52) ∨ q = n / 2 ^ (n.log2 - 52) + 1) ∧
    round n = q * 2 ^ (n.log2 - 52) := by
  rw [round]
  split
  · exact ⟨_, .inl rfl, rfl⟩
  · exact ⟨_, .inr rfl, rfl⟩

/-- Rounding stays within the powers of two around a number. -/
theorem round_bounds {n : ℕ} (hn : n ≠ 0) : 2 ^ n.log2 ≤ round n ∧ round n ≤ 2 ^ (n.log2 + 1) := by
  obtain ⟨q, hq, hround⟩ := round_eq n
  have hle : 2 ^ (n.log2 - (n.log2 - 52)) ≤ n / 2 ^ (n.log2 - 52) := by
    rw [Nat.le_div_iff_mul_le (Nat.two_pow_pos _), ← pow_add, Nat.sub_add_cancel (by omega)]
    exact Nat.log2_self_le hn
  have hlt : n / 2 ^ (n.log2 - 52) < 2 ^ (n.log2 + 1 - (n.log2 - 52)) := by
    rw [Nat.div_lt_iff_lt_mul (Nat.two_pow_pos _), ← pow_add, Nat.sub_add_cancel (by omega)]
    exact Nat.lt_log2_self
  rw [hround]
  constructor
  · calc 2 ^ n.log2 = 2 ^ (n.log2 - (n.log2 - 52)) * 2 ^ (n.log2 - 52) := by
          rw [← pow_add, Nat.sub_add_cancel (by omega)]
      _ ≤ q * 2 ^ (n.log2 - 52) := Nat.mul_le_mul_right _ (by omega)
  · calc q * 2 ^ (n.log2 - 52) ≤ 2 ^ (n.log2 + 1 - (n.log2 - 52)) * 2 ^ (n.log2 - 52) :=
          Nat.mul_le_mul_right _ (by omega)
      _ = 2 ^ (n.log2 + 1) := by rw [← pow_add, Nat.sub_add_cancel (by omega)]

theorem round_mono {m n : ℕ} (h : m ≤ n) : round m ≤ round n := by
  rcases Nat.eq_zero_or_pos m with rfl | hm
  · simp [round]
  have hlog : m.log2 ≤ n.log2 := by
    rw [Nat.le_log2 (by omega)]
    exact (Nat.log2_self_le hm.ne').trans h
  rcases hlog.eq_or_lt with heq | hlt
  · -- with one unit the quotients grow, and with one quotient the remainders
    rw [round, round, heq]
    have hdiv := Nat.div_le_div_right (c := 2 ^ (n.log2 - 52)) h
    refine Nat.mul_le_mul_right _ ?_
    rcases hdiv.eq_or_lt with hq | hq
    · have hmod : m % 2 ^ (n.log2 - 52) ≤ n % 2 ^ (n.log2 - 52) := by
        have := Nat.div_add_mod m (2 ^ (n.log2 - 52))
        have := Nat.div_add_mod n (2 ^ (n.log2 - 52))
        rw [hq] at *
        omega
      rw [hq]
      split_ifs <;> omega
    · split_ifs <;> omega
  · calc round m ≤ 2 ^ (m.log2 + 1) := (round_bounds hm.ne').2
      _ ≤ 2 ^ n.log2 := Nat.pow_le_pow_right (by decide) hlt
      _ ≤ round n := (round_bounds (by omega)).1

theorem nearest_mono {a b : ℤ} (h : a ≤ b) : nearest a ≤ nearest b := by
  have hneg : ∀ v : ℤ, v ≤ 0 → nearest v = -round v.natAbs := by
    intro v hv
    rcases hv.lt_or_eq with hv | rfl
    · rw [nearest, Int.sign_eq_neg_one_of_neg hv, neg_one_mul]
    · simp [nearest, round]
  have hpos : ∀ v : ℤ, 0 ≤ v → nearest v = round v.natAbs := by
    intro v hv
    rcases hv.lt_or_eq with hv | rfl
    · rw [nearest, Int.sign_eq_one_of_pos hv, one_mul]
    · simp [nearest, round]
  rcases le_total a 0 with ha | ha
  · rcases le_total b 0 with hb | hb
    · rw [hneg a ha, hneg b hb]
      have := round_mono (m := b.natAbs) (n := a.natAbs) (by omega)
      omega
    · rw [hneg a ha, hpos b hb]
      omega
  · rw [hpos a ha, hpos b (ha.trans h)]
    have := round_mono (m := a.natAbs) (n := b.natAbs) (by omega)
    omega

theorem lt_iff_nearest_lt {a b : ℤ} (h : nearest a ≠ nearest b) :
    a < b ↔ nearest a < nearest b := by
  constructor
  · exact fun hlt => lt_of_le_of_ne (nearest_mono hlt.le) h
  · exact fun hlt => lt_of_not_ge fun hle => not_lt.mpr (nearest_mono hle) hlt

end F64

theorem test_num (op : Comparison) (a b : ℚ) : op.test (.num a) (.num b) = op.holds a b := by
  cases op <;>
    simp [Comparison.test, Comparison.holds, F64.eq, F64.lt, le_iff_lt_or_eq, Bool.decide_or]

theorem holds_congr {α β : Type} [LinearOrder α] [LinearOrder β] (op : Comparison) {a b : α}
    {c d : β} (hlt : a < b ↔ c < d) (hgt : b < a ↔ d < c) : op.holds a b = op.holds c d := by
  have heq : a = b ↔ c = d := by
    rw [eq_iff_le_not_lt, eq_iff_le_not_lt, ← not_lt, ← not_lt, hlt, hgt]
  cases op <;> simp [Comparison.holds, heq, hlt, hgt, ← not_lt]

theorem ofBool_inj {b c : Bool} : ofBool b = ofBool c ↔ b = c := by
  cases b <;> cases c <;> decide

variable {evalArith : Arith → Datum → Datum → Datum} {row : Row} {x y : Datum} {t t' : Truth}

/-- A comparison of operands of one kind evaluates to its SQL value exactly if it is right. -/
theorem evalBinaryOp_compare {op : Comparison} (ht : sqlCompare op x y = some t) :
    evalBinaryOp evalArith x y (.compare op) = t.datum ↔ ComparedRight op x y := by
  -- operands without NULL, of which the floats are known
  have hboth : ∀ {b : Bool} {p q : ℚ}, isNull x = false → isNull y = false →
      sqlCompare op x y = some (some b) → toFloat64 x = .num p → toFloat64 y = .num q →
      (p ≠ q → b = op.holds p q) →
      (evalBinaryOp evalArith x y (.compare op) = Truth.datum (some b) ↔ ComparedRight op x y) := by
    intro b p q hx hy hb hp hq hne
    rw [evalBinaryOp, hx, hy, Bool.false_or, if_neg Bool.false_ne_true, evalComparison,
      ComparedRight, hb, hp, hq, test_num]
    show ofBool (op.holds p q) = ofBool b ↔ _
    rw [ofBool_inj]
    by_cases hpq : p = q
    · subst hpq
      have hself : op.holds p p = op.holds 0 0 := holds_congr op (by simp) (by simp)
      simp [F64.eq, hself, eq_comm]
    · simp [F64.eq, hpq, hne hpq]
  cases x <;> cases y <;> cases ht <;> first
    | exact iff_of_true rfl fun _ b hb => by cases hb
    | skip
  · refine hboth rfl rfl rfl rfl rfl fun hne => ?_
    have hne' := fun h => hne (congrArg Int.cast h)
    refine holds_congr op ?_ ?_
    · rw [Int.cast_lt]
      exact F64.lt_iff_nearest_lt hne'
    · rw [Int.cast_lt]
      exact F64.lt_iff_nearest_lt (Ne.symm hne')
  · exact hboth rfl rfl rfl rfl rfl fun hne => absurd rfl hne
  · exact hboth rfl rfl rfl rfl rfl fun hne => absurd rfl hne

theorem truth_eq_some (h : truth x = some t) :
    x = .null ∧ t = none ∨ ∃ v, x = .int64 v ∧ t = some (v != 0) := by
  cases x <;> simp_all [truth, eq_comm]

theorem evalBinaryOp_logic (ht : truth x = some t) (ht' : truth y = some t') :
    evalBinaryOp evalArith x y .and = (t.and t').datum ∧
      evalBinaryOp evalArith x y .or = (t.or t').datum := by
  have hint : ∀ v, toInt64 (.int64 v) = v := fun _ => rfl
  have hnull : ∀ v, isNull (.int64 v) = false := fun _ => rfl
  obtain ⟨rfl, rfl⟩ | ⟨u, rfl, rfl⟩ := truth_eq_some ht
  · obtain ⟨rfl, rfl⟩ | ⟨v, rfl, rfl⟩ := truth_eq_some ht'
    · exact ⟨rfl, rfl⟩
    · simp only [evalBinaryOp, evalLogicWithNull, hint, hnull]
      cases v != 0 <;> exact ⟨rfl, rfl⟩
  · obtain ⟨rfl, rfl⟩ | ⟨v, rfl, rfl⟩ := truth_eq_some ht'
    · simp only [evalBinaryOp, evalLogicWithNull, hint, hnull]
      cases u != 0 <;> exact ⟨rfl, rfl⟩
    · simp only [evalBinaryOp, hint, hnull]
      cases u != 0 <;> cases v != 0 <;> exact ⟨rfl, rfl⟩

theorem evalBinaryOp_eq {op : BinaryOp}
    (h : ∀ c, op = .compare c → ComparedRight c x y) (ht : sqlBinary x y op = some t) :
    evalBinaryOp evalArith x y op = t.datum := by
  cases op with
  | compare c => exact (evalBinaryOp_compare ht).mpr (h c rfl)
  | arith _ => cases ht
  | and =>
    obtain ⟨u, hu, v, hv, ⟨⟩⟩ : ∃ u, truth x = some u ∧
        ∃ v, truth y = some v ∧ some (u.and v) = some t := by
      simpa [sqlBinary, bind_eq_some_iff] using ht
    exact (evalBinaryOp_logic hu hv).1
  | or =>
    obtain ⟨u, hu, v, hv, ⟨⟩⟩ : ∃ u, truth x = some u ∧
        ∃ v, truth y = some v ∧ some (u.or v) = some t := by
      simpa [sqlBinary, bind_eq_some_iff] using ht
    exact (evalBinaryOp_logic hu hv).2

/-! ### The stack and the tree -/

theorem evalNodes_postfixForm {e : Expr} {d : Datum} (hval : e.value row = some d)
    (hexact : e.Exact row) (nodes : List RPNNode) (stack : List Datum) :
    evalNodes evalArith row (e.postfixForm ++ nodes) stack =
      evalNodes evalArith row nodes (d :: stack) := by
  induction e generalizing d nodes stack with
  | column colIdx =>
    rw [Expr.value] at hval
    rw [Expr.postfixForm, List.singleton_append, evalNodes, hval]
  | constant c =>
    cases hval
    rfl
  | binary op a b iha ihb =>
    simp only [Expr.value, bind_eq_bind, bind_eq_some_iff, pure_def] at hval
    obtain ⟨x, hx, y, hy, t, ht, ⟨⟩⟩ := hval
    obtain ⟨ha, hb, hcompared⟩ : a.Exact row ∧ b.Exact row ∧
        ∀ c, op = .compare c → ComparedRight c x y := by
      cases op with
      | compare c =>
        refine ⟨hexact.1, hexact.2.1, fun c' hc => ?_⟩
        cases hc
        exact hexact.2.2 x hx y hy
      | _ => exact ⟨hexact.1, hexact.2, nofun⟩
    rw [Expr.postfixForm, List.append_assoc, List.append_assoc, iha hx ha, ihb hy hb,
      ← evalBinaryOp_eq hcompared ht]
    rfl
  | not a iha =>
    simp only [Expr.value, bind_eq_bind, bind_eq_some_iff, pure_def] at hval
    obtain ⟨x, hx, t, ht, ⟨⟩⟩ := hval
    rw [Expr.postfixForm, List.append_assoc, iha hx hexact]
    obtain ⟨rfl, rfl⟩ | ⟨v, rfl, rfl⟩ := truth_eq_some ht
    · rfl
    · have hnot : (!(v != 0)) = (v == 0) := Bool.not_not _
      show _ = evalNodes evalArith row nodes (ofBool (!(v != 0)) :: stack)
      rw [hnot]
      rfl
  | isNull a iha =>
    simp only [Expr.value, bind_eq_bind, bind_eq_some_iff, pure_def] at hval
    obtain ⟨x, hx, ⟨⟩⟩ := hval
    rw [Expr.postfixForm, List.append_assoc, iha hx hexact]
    rfl

theorem eval_of_exact {e : Expr} {d : Datum} (hval : e.value row = some d) (hexact : e.Exact row) :
    eval evalArith e.postfixForm row = .ok d := by
  have h := @evalNodes_postfixForm evalArith row e d hval hexact [] []
  rw [List.append_nil] at h
  rw [eval, h]
  rfl

theorem eval_compare {op : Comparison} {a b : Expr} (hx : a.value row = some x)
    (hy : b.value row = some y) (ha : a.Exact row) (hb : b.Exact row) :
    eval evalArith (Expr.binary (.compare op) a b).postfixForm row =
      .ok (evalBinaryOp evalArith x y (.compare op)) := by
  rw [eval, Expr.postfixForm, List.append_assoc, evalNodes_postfixForm hx ha,
    evalNodes_postfixForm hy hb]
  rfl

/-- **A predicate evaluates to its SQL value if all its comparisons are right**; and a comparison,
the operands of which evaluate right, only then. -/
theorem eval_postfixForm (evalArith : Arith → Datum → Datum → Datum) (e : Expr) (row : Row)
    (d : Datum) (hval : e.value row = some d) :
    (e.Exact row → eval evalArith e.postfixForm row = .ok d) ∧
      ∀ op a b, e = .binary (.compare op) a b → a.Exact row → b.Exact row →
        (eval evalArith e.postfixForm row = .ok d ↔ e.Exact row) := by
  refine ⟨eval_of_exact hval, fun op a b he ha hb => ⟨fun h => ?_, eval_of_exact hval⟩⟩
  subst he
  simp only [Expr.value, bind_eq_bind, bind_eq_some_iff, pure_def] at hval
  obtain ⟨x, hx, y, hy, t, ht, ⟨⟩⟩ := hval
  rw [eval_compare hx hy ha hb] at h
  have hright := (evalBinaryOp_compare ht).mp (Except.ok.inj h)
  refine ⟨ha, hb, fun x' hx' y' hy' => ?_⟩
  cases hx.symm.trans hx'
  cases hy.symm.trans hy'
  exact hright

theorem eval_not_null_and_less :
    let e : Expr := .binary .and (.not (.isNull (.column 0)))
      (.binary (.compare .lt) (.column 0) (.constant (.int64 5)))
    eval (fun _ _ _ => .null) e.postfixForm [.int64 3] = .ok (.int64 1) := by
  intro e
  refine (eval_postfixForm _ e _ _ (by decide +kernel)).1 ⟨trivial, trivial, trivial, ?_⟩
  rintro _ ⟨⟩ _ ⟨⟩ hfloat
  exact absurd hfloat (by decide +kernel)

theorem unequal_compared_equal :
    let e : Expr := .binary (.compare .eq) (.column 0) (.column 1)
    let numbers : Row := [.int64 (2 ^ 53), .int64 (2 ^ 53 + 1)]
    let strings : Row := [.string [97], .string [98]]
    (e.value numbers = some (.int64 0) ∧ e.value strings = some (.int64 0)) ∧
      eval (fun _ _ _ => .null) e.postfixForm numbers = .ok (.int64 1) ∧
      eval (fun _ _ _ => .null) e.postfixForm strings = .ok (.int64 1) := by
  decide +kernel

end Rpn
