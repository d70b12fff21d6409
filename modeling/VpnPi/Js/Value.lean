import VpnPi.Js.Number

/-!
# `Js.Value` — JavaScript data values and instants

The daemon handles request bodies as untyped values (`as never`), so the model does too: `Value` is what
`JSON.parse` can produce, plus `undefined` (an absent property, a missing body field). An object is the list
of its own enumerable properties in insertion order; `WF` says their keys are distinct.

`Engine` is the part of the platform a program cannot see into: the conversion of a numeral to a double and
the two date functions, of which only `toISOString`'s format is fixed by the language.

Names nothing of the daemon.
-/

namespace VpnPi
namespace Js

/-! ## Instants -/

/-- A valid `Date`: at most 100,000,000 days (in milliseconds) either side of the epoch. -/
structure Instant where
  ms    : Int
  valid : -8640000000000000 ≤ ms ∧ ms ≤ 8640000000000000
  deriving DecidableEq

/-- `new Date(x)`: `none` is the invalid date, on which `toISOString` throws a `RangeError`. -/
def Instant.ofMs (x : Int) : Option Instant :=
  if h : -8640000000000000 ≤ x ∧ x ≤ 8640000000000000 then some ⟨x, h⟩ else none

/-! ## The engine -/

structure Engine where
  /-- The double nearest to a numeral. -/
  toNumber : JsString → Number
  /-- `String(x)` is a numeral that denotes `x` again. -/
  toNumber_text : ∀ {lit t : JsString} {i : Bool}, toNumber lit = .finite t i →
    isJsonNumber t = true ∧ toNumber t = .finite t i
  /-- Integers of at most 53 bits are exact. -/
  toNumber_int : ∀ {n : Int}, -9007199254740992 < n → n < 9007199254740992 → toNumber (intText n) = .ofInt n
  /-- `Date.parse`; `none` is `NaN`. -/
  dateParse : JsString → Option Instant
  /-- `Date.prototype.toISOString` on a valid date. -/
  toISOString : Instant → JsString

/-! ## Values -/

inductive Value where
  | undefined
  | null
  | bool (b : Bool)
  | num (x : Number)
  | str (s : JsString)
  | arr (xs : List Value)
  | obj (es : List (JsString × Value))

namespace Value

mutual
def decEq : (v w : Value) → Decidable (v = w)
  | undefined, undefined => isTrue rfl
  | null, null => isTrue rfl
  | bool b, bool c => if h : b = c then isTrue (h ▸ rfl) else isFalse fun hh => h (Value.bool.inj hh)
  | num x, num y => if h : x = y then isTrue (h ▸ rfl) else isFalse fun hh => h (Value.num.inj hh)
  | str s, str t => if h : s = t then isTrue (h ▸ rfl) else isFalse fun hh => h (Value.str.inj hh)
  | arr xs, arr ys =>
      match decEqList xs ys with
      | isTrue h => isTrue (h ▸ rfl)
      | isFalse h => isFalse fun hh => h (Value.arr.inj hh)
  | obj es, obj fs =>
      match decEqFields es fs with
      | isTrue h => isTrue (h ▸ rfl)
      | isFalse h => isFalse fun hh => h (Value.obj.inj hh)
  | undefined, null | undefined, bool _ | undefined, num _ | undefined, str _ | undefined, arr _
  | undefined, obj _ | null, undefined | null, bool _ | null, num _ | null, str _ | null, arr _
  | null, obj _ | bool _, undefined | bool _, null | bool _, num _ | bool _, str _ | bool _, arr _
  | bool _, obj _ | num _, undefined | num _, null | num _, bool _ | num _, str _ | num _, arr _
  | num _, obj _ | str _, undefined | str _, null | str _, bool _ | str _, num _ | str _, arr _
  | str _, obj _ | arr _, undefined | arr _, null | arr _, bool _ | arr _, num _ | arr _, str _
  | arr _, obj _ | obj _, undefined | obj _, null | obj _, bool _ | obj _, num _ | obj _, str _
  | obj _, arr _ => isFalse nofun

def decEqList : (xs ys : List Value) → Decidable (xs = ys)
  | [], [] => isTrue rfl
  | [], _ :: _ | _ :: _, [] => isFalse nofun
  | x :: xs, y :: ys =>
      match decEq x y, decEqList xs ys with
      | isTrue h, isTrue h' => isTrue (h ▸ h' ▸ rfl)
      | isFalse h, _ => isFalse fun hh => h (List.cons.inj hh).1
      | _, isFalse h => isFalse fun hh => h (List.cons.inj hh).2

def decEqFields : (es fs : List (JsString × Value)) → Decidable (es = fs)
  | [], [] => isTrue rfl
  | [], _ :: _ | _ :: _, [] => isFalse nofun
  | (k, v) :: es, (l, w) :: fs =>
      match decEq v w, decEqFields es fs with
      | isTrue h, isTrue h' =>
          if hk : k = l then isTrue (hk ▸ h ▸ h' ▸ rfl)
          else isFalse fun hh => hk (Prod.mk.inj (List.cons.inj hh).1).1
      | isFalse h, _ => isFalse fun hh => h (Prod.mk.inj (List.cons.inj hh).1).2
      | _, isFalse h => isFalse fun hh => h (List.cons.inj hh).2
end

instance : DecidableEq Value := decEq

/-! ## Reading a value -/

/-- `v.k` for a name `k` that no built-in prototype defines: throws (`none`) on `undefined` and `null`,
    is `undefined` on a value without that property. -/
def prop (v : Value) (k : JsString) : Option Value :=
  match v with
  | undefined | null => none
  | obj es => some ((es.lookup k).getD undefined)
  | _ => some undefined

def isStr : Value → Bool
  | str _ => true
  | _ => false

/-- Not an array or object: what `Set.prototype.has` compares by value rather than by reference. -/
def isPrimitive : Value → Bool
  | arr _ | obj _ => false
  | _ => true

def isNullish : Value → Bool
  | undefined | null => true
  | _ => false

/-- `ToBoolean`: of the numbers JSON can hold, zero is false. -/
def truthy : Value → Bool
  | undefined | null => false
  | bool b => b
  | num x => x.text ≠ js "0"
  | str s => s ≠ []
  | arr _ | obj _ => true

mutual
/-- `ToString`. No property of parsed JSON is callable, so an own `toString` makes the conversion of an
    object throw (`none`). -/
def toStr : Value → Option JsString
  | undefined => some (js "undefined")
  | null => some (js "null")
  | bool true => some (js "true")
  | bool false => some (js "false")
  | num x => some x.text
  | str s => some s
  | arr xs => joinStr xs
  | obj es => if (es.map Prod.fst).contains (js "toString") then none else some (js "[object Object]")

/-- `Array.prototype.join(",")`: `null` and `undefined` elements print as nothing. -/
def joinStr : List Value → Option JsString
  | [] => some []
  | x :: xs => do
      let a ← if x.isNullish then some [] else toStr x
      let b ← joinStr xs
      pure (if xs.isEmpty then a else a ++ 0x2c :: b)
end

/-! ## Well-formed values -/

/-- A number the engine can hold: `String(x)` denotes it again. -/
def NumWF (E : Engine) : Number → Prop
  | .finite t i => isJsonNumber t = true ∧ E.toNumber t = .finite t i
  | .infinite _ => True

mutual
/-- What every JavaScript data value satisfies: an object has one property per key, and numbers are the
    engine's. -/
def WF (E : Engine) : Value → Prop
  | num x => NumWF E x
  | arr xs => WFList E xs
  | obj es => (es.map Prod.fst).Nodup ∧ WFFields E es
  | _ => True

def WFList (E : Engine) : List Value → Prop
  | [] => True
  | x :: xs => WF E x ∧ WFList E xs

def WFFields (E : Engine) : List (JsString × Value) → Prop
  | [] => True
  | (_, v) :: es => WF E v ∧ WFFields E es
end

theorem wfFields_lookup {E : Engine} {es : List (JsString × Value)} {k : JsString} {v : Value}
    (h : WFFields E es) (hl : es.lookup k = some v) : WF E v := by
  induction es with
  | nil => cases hl
  | cons e es ih =>
      rw [List.lookup_cons] at hl
      cases hk : k == e.1 with
      | true => rw [hk] at hl; cases hl; exact h.1
      | false => rw [hk] at hl; exact ih h.2 hl

theorem WF.prop {E : Engine} {v w : Value} {k : JsString} (h : WF E v) (hp : v.prop k = some w) :
    WF E w := by
  cases v with
  | undefined => cases hp
  | null => cases hp
  | obj es =>
      obtain rfl : (es.lookup k).getD undefined = w := Option.some.inj hp
      cases hl : es.lookup k with
      | none => trivial
      | some u => exact wfFields_lookup h.2 hl
  | bool b => cases hp; trivial
  | num x => cases hp; trivial
  | str s => cases hp; trivial
  | arr xs => cases hp; trivial

end Value
end Js
end VpnPi
