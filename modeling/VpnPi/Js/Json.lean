import VpnPi.Js.OrdMap
import VpnPi.Js.Value

/-!
# `Js.Json` — `JSON.stringify` and `JSON.parse`

`render q` prints a value with `q` as the escaping of string contents and no white space; `JSON.stringify`
is one instance of it (the daemon's canonical signer is another). `readValue` is the reader: a
recursive-descent parser over the full JSON grammar, white space and escapes included, on a fuel argument
that the length of the text always covers.

Names nothing of the daemon.
-/

namespace VpnPi
namespace Js

/-! ## Printing -/

mutual
/-- The text of a value; `q` escapes the contents of a string. -/
def render (q : JsString → JsString) : Value → JsString
  | .undefined | .null => js "null"
  | .bool true => js "true"
  | .bool false => js "false"
  | .num x => x.text
  | .str s => 0x22 :: q s ++ [0x22]
  | .arr xs => 0x5b :: renderList q xs ++ [0x5d]
  | .obj es => 0x7b :: renderFields q es ++ [0x7d]

def renderList (q : JsString → JsString) : List Value → JsString
  | [] => []
  | x :: xs => render q x ++ (if xs.isEmpty then [] else 0x2c :: renderList q xs)

def renderFields (q : JsString → JsString) : List (JsString × Value) → JsString
  | [] => []
  | (k, v) :: es =>
      0x22 :: q k ++ 0x22 :: 0x3a :: render q v ++ (if es.isEmpty then [] else 0x2c :: renderFields q es)
end

/-- The two-character escapes `\"`, `\\`, `\b`, `\f`, `\n`, `\r`, `\t`, by the character escaped. -/
def shortEscape (u : UInt16) : Option UInt16 :=
  if u = 0x22 then some 0x22
  else if u = 0x5c then some 0x5c
  else if u = 0x08 then some 0x62
  else if u = 0x0c then some 0x66
  else if u = 0x0a then some 0x6e
  else if u = 0x0d then some 0x72
  else if u = 0x09 then some 0x74
  else none

def isHighSurrogate (u : UInt16) : Bool := 0xd800 ≤ u && u ≤ 0xdbff

def isLowSurrogate (u : UInt16) : Bool := 0xdc00 ≤ u && u ≤ 0xdfff

def startsLow : JsString → Bool
  | [] => false
  | u :: _ => isLowSurrogate u

/-- `QuoteJSONString` without the quotes: short escapes, `\u00xx` for the other controls, and `\udxxx`
    for a surrogate that is not part of a pair. `paired` says that the next unit completes a pair. -/
def quoteFrom (paired : Bool) : JsString → JsString
  | [] => []
  | u :: s =>
      if paired then u :: quoteFrom false s
      else
        match shortEscape u with
        | some e => 0x5c :: e :: quoteFrom false s
        | none =>
            if isHighSurrogate u && startsLow s then u :: quoteFrom true s
            else if u < 0x20 || isHighSurrogate u || isLowSurrogate u then
              0x5c :: 0x75 :: hex4 u ++ quoteFrom false s
            else u :: quoteFrom false s

def quoteBody (s : JsString) : JsString := quoteFrom false s

mutual
/-- What `JSON.stringify` prints of a value: `undefined` properties are skipped, and `undefined` elements
    and infinite numbers print as `null`. -/
def jsonView : Value → Value
  | .undefined => .null
  | .num (.infinite _) => .null
  | .arr xs => .arr (jsonViewList xs)
  | .obj es => .obj (jsonViewFields es)
  | v => v

def jsonViewList : List Value → List Value
  | [] => []
  | x :: xs => jsonView x :: jsonViewList xs

def jsonViewFields : List (JsString × Value) → List (JsString × Value)
  | [] => []
  | (k, v) :: es => if v = .undefined then jsonViewFields es else (k, jsonView v) :: jsonViewFields es
end

/-- `JSON.stringify(v)` for a `v` other than `undefined`. -/
def stringify (v : Value) : JsString := render quoteBody (jsonView v)

/-! ## Reading -/

/-- The character a two-character escape stands for. -/
def unescape (e : UInt16) : Option UInt16 :=
  if e = 0x22 ∨ e = 0x5c ∨ e = 0x2f then some e
  else if e = 0x62 then some 0x08
  else if e = 0x66 then some 0x0c
  else if e = 0x6e then some 0x0a
  else if e = 0x72 then some 0x0d
  else if e = 0x74 then some 0x09
  else none

/-- The contents of a string up to its closing quote, and what follows. -/
def readString : JsString → Option (JsString × JsString)
  | [] => none
  | u :: r =>
      if u = 0x22 then some ([], r)
      else if u = 0x5c then
        match r with
        | [] => none
        | e :: r' =>
            if e = 0x75 then
              match r' with
              | a :: b :: c :: d :: r'' =>
                  match ofHex4 a b c d with
                  | some v => (readString r'').map fun p => (v :: p.1, p.2)
                  | none => none
              | _ => none
            else
              match unescape e with
              | some v => (readString r').map fun p => (v :: p.1, p.2)
              | none => none
      else if u < 0x20 then none
      else (readString r).map fun p => (u :: p.1, p.2)

def isJsonSpace (u : UInt16) : Bool := u = 0x20 || u = 0x09 || u = 0x0a || u = 0x0d

def skipSpace (s : JsString) : JsString := s.dropWhile isJsonSpace

/-- `r` without the prefix `p`. -/
def expect (p r : JsString) : Option JsString := if p.isPrefixOf r then some (r.drop p.length) else none

/-- A numeral: the longest run of numeral units, which must be one by the grammar. -/
def readNumber (E : Engine) (s : JsString) : Option (Value × JsString) :=
  let t := s.takeWhile isNumUnit
  if isJsonNumber t then some (.num (E.toNumber t), s.dropWhile isNumUnit) else none

/-- The own properties after defining each field in order: a repeated key keeps its first place and takes
    its last value. -/
def ownFields (es : List (JsString × Value)) : List (JsString × Value) := (OrdMap.ofEntries es).entries

mutual
def readValue (E : Engine) : Nat → JsString → Option (Value × JsString)
  | 0, _ => none
  | n + 1, s =>
      match skipSpace s with
      | [] => none
      | u :: r =>
          if u = 0x22 then (readString r).map fun p => (.str p.1, p.2)
          else if u = 0x5b then
            match skipSpace r with
            | 0x5d :: r' => some (.arr [], r')
            | _ => (readElems E n r).map fun p => (.arr p.1, p.2)
          else if u = 0x7b then
            match skipSpace r with
            | 0x7d :: r' => some (.obj [], r')
            | _ => (readFields E n r).map fun p => (.obj (ownFields p.1), p.2)
          else if u = 0x6e then (expect (js "ull") r).map fun r' => (.null, r')
          else if u = 0x74 then (expect (js "rue") r).map fun r' => (.bool true, r')
          else if u = 0x66 then (expect (js "alse") r).map fun r' => (.bool false, r')
          else readNumber E (u :: r)

/-- The elements of an array up to its closing bracket. -/
def readElems (E : Engine) : Nat → JsString → Option (List Value × JsString)
  | 0, _ => none
  | n + 1, s =>
      match readValue E n s with
      | none => none
      | some (v, r) =>
          match skipSpace r with
          | 0x2c :: r' => (readElems E n r').map fun p => (v :: p.1, p.2)
          | 0x5d :: r' => some ([v], r')
          | _ => none

/-- The fields of an object up to its closing brace, as written. -/
def readFields (E : Engine) : Nat → JsString → Option (List (JsString × Value) × JsString)
  | 0, _ => none
  | n + 1, s =>
      match skipSpace s with
      | 0x22 :: r =>
          match readString r with
          | none => none
          | some (k, r) =>
              match skipSpace r with
              | 0x3a :: r =>
                  match readValue E n r with
                  | none => none
                  | some (v, r) =>
                      match skipSpace r with
                      | 0x2c :: r' => (readFields E n r').map fun p => ((k, v) :: p.1, p.2)
                      | 0x7d :: r' => some ([(k, v)], r')
                      | _ => none
              | _ => none
      | _ => none
end

/-- `JSON.parse`; `none` is a `SyntaxError`. A value is never longer than its text, so the fuel suffices. -/
def parse (E : Engine) (s : JsString) : Option Value :=
  match readValue E (s.length + 1) s with
  | some (v, r) => if (skipSpace r).isEmpty then some v else none
  | none => none

end Js
end VpnPi
