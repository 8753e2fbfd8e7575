import EmberClasses.Json.Double

/-!
JSON values. Objects keep the order in which their keys were first written. Numbers without a
fraction or exponent that fit into 64 bits are whole numbers, all others are doubles.
-/

namespace EmberClasses

namespace Json

inductive Number where
  | whole (value : Int)
  | double (negative : Bool) (magnitude : Double)
  deriving DecidableEq, Inhabited

end Json

inductive Json where
  | null
  | bool (value : Bool)
  | number (value : Json.Number)
  | string (value : String)
  | array (items : List Json)
  | object (entries : List (String × Json))
  deriving Inhabited

namespace Json

/-- Sets a key. A key that is already there keeps its place. -/
def setKey {α : Type} (key : String) (value : α) : List (String × α) → List (String × α)
  | [] => [(key, value)]
  | (k, v) :: rest => if k = key then (k, value) :: rest else (k, v) :: setKey key value rest

/-- How doubles are written: positional when the leading digit is worth `10 ^ low` to `10 ^ high`,
otherwise with an exponent that always has its sign. -/
structure DoubleFormat where
  low : Int
  high : Int
  plus : String
  deriving Inhabited

def DoubleFormat.standard : DoubleFormat := ⟨-5, 15, "+"⟩

def DoubleFormat.render (f : DoubleFormat) (x : Double) : String :=
  let t := x.shortest
  let digits := (Nat.toDigits 10 t.digits).reverse.dropWhile (· == '0') |>.reverse
  if digits.isEmpty then "0.0"
  else
    let lead : Int := Int.ofNat (Nat.toDigits 10 t.digits).length + t.exponent - 1
    let count := digits.length
    if f.low ≤ lead ∧ lead ≤ f.high then
      if lead < 0 then
        String.ofList ("0.".toList ++ List.replicate ((-lead).toNat - 1) '0' ++ digits)
      else
        let point := lead.toNat + 1
        if count ≤ point then
          String.ofList (digits ++ List.replicate (point - count) '0' ++ ".0".toList)
        else String.ofList (digits.take point ++ '.' :: digits.drop point)
    else
      let fraction := if count = 1 then [] else '.' :: digits.drop 1
      let sign := if lead < 0 then "-" else f.plus
      String.ofList (digits.take 1 ++ fraction) ++ "e" ++ sign ++ toString lead.natAbs

def Number.render : Number → String
  | .whole n => toString n
  | .double negative x => (if negative then "-" else "") ++ DoubleFormat.standard.render x

end Json

end EmberClasses
