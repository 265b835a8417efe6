import TimeOff.HcmSyncService

/-! The payload of `GET /hcm/batch-sync`: any JSON value, and what the batch makes of one
element of it. -/
namespace TimeOff

inductive Json
  | null
  | bool (b : Bool)
  | number (x : ℚ)
  | string (s : String)
  | array (items : List Json)
  | object (fields : List (String × Json))

/-- What the batch throws or catches: an error of the engine, one of its own, or what a
repository or the HCM client threw. -/
inductive BatchErr
  | typeError (message : String)
  | invalidResponse
  | alreadyRunning
  | driver (e : Err)
  deriving DecidableEq, Repr

def BatchErr.message : BatchErr → String
  | typeError message => message
  | invalidResponse => "HCM batch endpoint returned invalid or empty response"
  | alreadyRunning => "Batch sync already in progress"
  | driver e => e.message

/-- What the batch sees of code outside it: what the engine makes of an amount and how it writes a
number, what text the driver stores for a value that is not a string, which keys the constraints
of the table take, and which row `findOne` answers with when its conditions leave several. -/
structure Runtime where
  round : ℚ → ℚ
  numberText : ℚ → String
  columnText : Json → Except Err String
  takes : BalanceKey → Bool
  pick : List EmployeeBalance → Option EmployeeBalance
  pick_mem : ∀ rows row, pick rows = some row → row ∈ rows
  pick_isSome : ∀ rows, rows ≠ [] → (pick rows).isSome

/-- A runtime whose amounts are exact numbers. -/
structure ExactRuntime extends Runtime where
  exact : round = id

instance : Coe ExactRuntime Runtime := ⟨ExactRuntime.toRuntime⟩

/-- A runtime to compute with. -/
def plainRuntime : Runtime where
  round := id
  numberText x := toString x
  columnText _ := .error (constraintError "unsupported value")
  takes _ := true
  pick := List.head?
  pick_mem _ _ h := List.mem_of_head? h
  pick_isSome _ h := List.isSome_head?.mpr h

def plainExact : ExactRuntime := ⟨plainRuntime, rfl⟩

/-- The same in the doubles of the engine. -/
def doubleRuntime : Runtime := { plainRuntime with round := Double.round }

section Element

/-- The fields the batch reads of an element; `none` is `undefined`. -/
structure HcmFields where
  employeeId : Option Json
  locationId : Option Json
  leaveType : Option Json
  totalBalance : Option Json
  version : Option Json

def Json.fields : Json → Except BatchErr HcmFields
  | .null => .error (.typeError "Cannot read properties of null (reading 'employeeId')")
  | .object fields =>
    .ok
      { employeeId := fields.lookup "employeeId"
        locationId := fields.lookup "locationId"
        leaveType := fields.lookup "leaveType"
        totalBalance := fields.lookup "totalBalance"
        version := fields.lookup "version" }
  | _ => .ok ⟨none, none, none, none, none⟩

def Json.isNull : Json → Bool
  | .null => true
  | _ => false

def Json.truthy : Json → Bool
  | .null => false
  | .bool b => b
  | .number x => x ≠ 0
  | .string s => s ≠ ""
  | _ => true

variable (rt : Runtime)

mutual

/-- `String(value)`. The own `toString` of a JSON object is never a function, and then the
object has no text. -/
def Json.text : Json → Except BatchErr String
  | .null => .ok "null"
  | .bool b => .ok (if b then "true" else "false")
  | .number x => .ok (rt.numberText x)
  | .string s => .ok s
  | .array items => (Json.texts items).map (",".intercalate ·)
  | .object fields =>
    if (fields.lookup "toString").isSome then
      .error (.typeError "Cannot convert object to primitive value")
    else .ok "[object Object]"

/-- The texts that `join` puts together. -/
def Json.texts : List Json → Except BatchErr (List String)
  | [] => .ok []
  | item :: items => do
    let head ← item.text
    let tail ← Json.texts items
    return (if item.isNull then "" else head) :: tail

end

/-- What a template literal makes of a field. -/
def fieldText : Option Json → Except BatchErr String
  | none => .ok "undefined"
  | some value => value.text rt

/-- The key of an element in `hcmKeySet`. -/
def Json.joinedKey (r : Json) : Except BatchErr String := do
  let r ← r.fields
  let employeeId ← fieldText rt r.employeeId
  let locationId ← fieldText rt r.locationId
  let leaveType ← fieldText rt r.leaveType
  return employeeId ++ "|" ++ locationId ++ "|" ++ leaveType

/-- The key of a row, as the omission pass joins it. -/
def BalanceKey.joined (key : BalanceKey) : String :=
  key.employeeId ++ "|" ++ key.locationId ++ "|" ++ key.leaveType

/-- `parseFloat(hcmTotalStr)`. -/
def hcmTotalOf : Option Json → Except BatchErr Num
  | none => .ok none
  | some (.number x) => .ok (some x)
  | some value => (value.text rt).map parseFloat

/-- The text a `varchar` column gets; `none` is `NULL`. -/
def columnOf : Option Json → Except BatchErr (Option String)
  | none => .ok none
  | some .null => .ok none
  | some (.string s) => .ok (some s)
  | some value => ((rt.columnText value).map some).mapError .driver

/-- `version || null`. -/
def versionOf : Option Json → Except BatchErr (Option String)
  | none => .ok none
  | some value => if value.truthy then columnOf rt (some value) else .ok none

/-- The conditions of `findOne`, or the columns of a new row. A column that is missing is no
condition. -/
structure Columns where
  employeeId : Option String
  locationId : Option String
  leaveType : Option String
  deriving DecidableEq, Repr

def HcmFields.columns (r : HcmFields) : Except BatchErr Columns := do
  let employeeId ← columnOf rt r.employeeId
  let locationId ← columnOf rt r.locationId
  let leaveType ← columnOf rt r.leaveType
  return ⟨employeeId, locationId, leaveType⟩

end Element

namespace Columns

def admits (c : Columns) (key : BalanceKey) : Bool :=
  (c.employeeId.all (· = key.employeeId) && c.locationId.all (· = key.locationId)) &&
    c.leaveType.all (· = key.leaveType)

/-- The key of a new row, unless a column is missing. -/
def key? (c : Columns) : Option BalanceKey :=
  c.employeeId.bind fun employeeId =>
    c.locationId.bind fun locationId =>
      c.leaveType.map fun leaveType => ⟨employeeId, locationId, leaveType⟩

end Columns

end TimeOff
