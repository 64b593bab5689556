import PlacementRules.Json.Numeral

/-!
# JSON values

The value of a JSON document.  Numbers are kept as they are written; the first
member of a name is the one that counts.
-/

namespace PlacementRules

inductive Json where
  | null
  | bool (value : Bool)
  | number (value : Numeral)
  | string (value : String)
  | array (items : List Json)
  | object (members : List (String × Json))
deriving Repr, Inhabited

namespace Json

def isObject : Json → Bool
  | .object _ => true
  | _ => false

def isNull : Json → Bool
  | .null => true
  | _ => false

def isTrue : Json → Bool
  | .bool value => value
  | _ => false

def get? (name : String) : Json → Option Json
  | .object members => members.lookup name
  | _ => none

@[simp] theorem get?_nil (name : String) : (object []).get? name = none :=
  rfl

@[simp] theorem get?_cons (name key : String) (member : Json)
    (members : List (String × Json)) :
    (object ((key, member) :: members)).get? name =
      if name = key then some member else (object members).get? name := by
  rw [get?, List.lookup_cons]
  cases hkey : name == key with
  | true => simp [beq_iff_eq.mp hkey]
  | false => simp [beq_eq_false_iff_ne.mp hkey, get?]

def string? : Json → Option String
  | .string value => some value
  | _ => none

def array? : Json → Option (List Json)
  | .array items => some items
  | _ => none

def float? : Json → Option Float
  | .number value => value.toFloat?
  | _ => none

def getString? (name : String) (value : Json) : Option String :=
  (value.get? name).bind string?

/-- The string member of a name, and the empty string if there is none. -/
def getText (name : String) (value : Json) : String :=
  (value.getString? name).getD ""

/-- The items of the array member of a name, and none if there is no such array. -/
def getItems (name : String) (value : Json) : List Json :=
  ((value.get? name).bind array?).getD []

/-- The member of a name is present and `true`. -/
def getFlag (name : String) (value : Json) : Bool :=
  ((value.get? name).map isTrue).getD false

/-- The member of a name, unless it is missing or `null`. -/
def getPresent? (name : String) (value : Json) : Option Json :=
  (value.get? name).filter fun member => !member.isNull

def ofNat (n : Nat) : Json :=
  .number (.ofNat n)

theorem ofNat_injective : Function.Injective ofNat := by
  intro first second hsame
  have hread := congrArg Numeral.toNat? (number.inj hsame)
  simpa using hread

theorem sizeOf_lt_of_get? {name : String} {value member : Json}
    (hmember : value.get? name = some member) : sizeOf member < sizeOf value := by
  cases value with
  | object members =>
      have hsmaller :
          forall {members : List (String × Json)},
            members.lookup name = some member -> sizeOf member < sizeOf members := by
        intro members hlookup
        induction members with
        | nil => simp at hlookup
        | cons entry more ih =>
            obtain ⟨key, first⟩ := entry
            rw [List.lookup_cons] at hlookup
            cases hkey : name == key with
            | true =>
                simp only [hkey, Option.some.injEq] at hlookup
                subst hlookup
                simp only [List.cons.sizeOf_spec, Prod.mk.sizeOf_spec]
                omega
            | false =>
                simp only [hkey] at hlookup
                have hmore := ih hlookup
                simp only [List.cons.sizeOf_spec]
                omega
      have hless := hsmaller hmember
      simp only [object.sizeOf_spec]
      omega
  | null | bool _ | number _ | string _ | array _ => simp [get?] at hmember

theorem sizeOf_lt_of_mem_getItems {name : String} {value item : Json}
    (hitem : item ∈ value.getItems name) : sizeOf item < sizeOf value := by
  unfold getItems at hitem
  cases hmember : value.get? name with
  | none => simp [hmember] at hitem
  | some member =>
      cases member with
      | array items =>
          simp only [hmember, Option.bind_some, array?, Option.getD_some] at hitem
          have hless := List.sizeOf_lt_of_mem hitem
          have hinner := sizeOf_lt_of_get? hmember
          simp only [array.sizeOf_spec] at hinner
          omega
      | null | bool _ | number _ | string _ | object _ =>
          simp [hmember, array?] at hitem

end Json

end PlacementRules
